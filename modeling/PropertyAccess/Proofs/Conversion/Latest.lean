import PropertyAccess.Proofs.Conversion.Spelled
import PropertyAccess.Proofs.Graph.Sequence

/-! The latest of several registrations. One that is made finds its converter or leaves a
lookup as it was, and one that is refused changes nothing. What is registered for one type and
path again and again is registered once: where it was registered first, with the converter
that was registered last. Tables of types and of paths may be walked in any order; a lookup by
type does not depend on it if the type is registered or at most one registered type takes it. -/

namespace PropertyAccess

section Upsert

variable {α β : Type} [DecidableEq α] {key other : α} {l : List (α × β)}

theorem mem_keys_upsert (value : β) :
    other ∈ (upsert key value l).map (·.1) ↔ other = key ∨ other ∈ l.map (·.1) := by
  by_cases there : key ∈ l.map (·.1)
  · rw [keys_upsert_of_mem there]
    exact ⟨.inr, fun h => h.elim (fun same => same ▸ there) id⟩
  · rw [upsert_of_not_mem there, List.map_append, List.mem_append, or_comm]
    simp

theorem upsert_upsert_self (key : α) (value later : β) (l : List (α × β)) :
    upsert key later (upsert key value l) = upsert key later l := by
  induction l with
  | nil => simp [upsert]
  | cons e r ih =>
    obtain ⟨k, v⟩ := e
    by_cases same : k = key
    · simp [upsert, same]
    · simp [upsert, same, ih]

theorem upsert_comm (there : key ∈ l.map (·.1)) (apart : other ≠ key) (value later : β) :
    upsert other later (upsert key value l) = upsert key value (upsert other later l) := by
  induction l with
  | nil => simp at there
  | cons e r ih =>
    obtain ⟨k, v⟩ := e
    by_cases first : k = key
    · simp [upsert, first, apart.symm]
    · by_cases second : k = other
      · subst second
        simp [upsert, first]
      · have further : key ∈ r.map (·.1) := (List.mem_cons.1 there).resolve_left (Ne.symm first)
        simp [upsert, first, second, ih further]

theorem find?_upsert (p : α → Bool) (key : α) (value : β) (l : List (α × β)) :
    ((upsert key value l).find? fun e => p e.1).map (·.2) = some value ∨
      ((upsert key value l).find? fun e => p e.1).map (·.2) =
        (l.find? fun e => p e.1).map (·.2) := by
  induction l with
  | nil =>
    rw [upsert, List.find?_singleton]
    split
    · exact .inl rfl
    · exact .inr rfl
  | cons e r ih =>
    obtain ⟨k, v⟩ := e
    rw [upsert]
    split
    · rw [List.find?_cons, List.find?_cons]
      cases p k with
      | true => exact .inl rfl
      | false => exact .inr rfl
    · rw [List.find?_cons, List.find?_cons]
      cases p k with
      | true => exact .inr rfl
      | false => exact ih

theorem find?_upsert_self {p : α → Bool} (own : p key = true)
    (only : ∀ e ∈ l, p e.1 = true → e.1 = key) (value : β) :
    ((upsert key value l).find? fun e => p e.1).map (·.2) = some value := by
  induction l with
  | nil => simp [upsert, own]
  | cons e r ih =>
    obtain ⟨first, rest⟩ := List.forall_mem_cons.1 only
    obtain ⟨k, v⟩ := e
    rw [upsert]
    split
    · rename_i same
      simp [same, own]
    · rename_i other
      have passed : p k = false := Bool.eq_false_iff.2 fun found => other (first found)
      rw [List.find?_cons, passed]
      exact ih rest

end Upsert

namespace PathScope

def revise (change : List (Option Ty × Converter) → List (Option Ty × Converter))
    (scope : PathScope) : PathScope :=
  { scope with entries := change scope.entries }

end PathScope

/-- A converter with what it is registered for. -/
structure Registration where
  type : Option Ty
  path : Option String
  converter : Converter

namespace Registration

/-- The erased type and the canonical path, unless the registration is refused. -/
def key? (r : Registration) : Option (Option Ty × Option String) :=
  match r.type, r.path with
  | none, none => none
  | some t, none => some (some t.erased, none)
  | type, some text =>
    match Path.parse text with
    | .ok p => some (type.map Ty.erased, some p.canonical)
    | .error _ => none

/-- The last converter that is registered with a key after this one. -/
def latest (key : Option Ty × Option String) (c : Converter) (l : List Registration) :
    Converter :=
  l.foldl (fun c r => if r.key? = some key then r.converter else c) c

/-- One registration a key, at the place of the first and with the converter of the last. -/
def condensed : List Registration → List Registration
  | [] => []
  | r :: rest =>
    match r.key? with
    | none => r :: condensed rest
    | some key =>
      { r with converter := latest key r.converter rest } ::
        condensed (rest.filter (·.key? ≠ some key))
  termination_by l => l.length
  decreasing_by
    · exact Nat.lt_succ_self _
    · simpa [Nat.lt_succ_iff] using (List.length_filter_le _ rest.attach).trans_eq (by simp)

end Registration

namespace Registrations

open PathScope

variable {F G : List (Option Ty × Converter) → List (Option Ty × Converter)} {p q : Path}
  {scopes : List PathScope} {σ : Schema} {rs kept : Registrations} {required : Ty} {c : Converter}

theorem entriesAt_revise (p : Path) (text : String) (scopes : List PathScope) :
    entriesAt text (atPath p (revise F) scopes) =
      if p.canonical = text then F (entriesAt text scopes) else entriesAt text scopes := by
  apply entriesAt_atPath
  · exact fun _ => rfl
  · exact fun _ => rfl

theorem atPath_revise_self (same : q.canonical = p.canonical) :
    atPath q (revise G) (atPath p (revise F) scopes) = atPath p (revise (G ∘ F)) scopes := by
  induction scopes with
  | nil => simp [atPath, revise, same]
  | cons scope r ih =>
    by_cases here : scope.path.canonical = p.canonical
    · simp [atPath, revise, here, same]
    · simp [atPath, here, same, ih]

theorem atPath_revise_comm (there : ∃ scope ∈ scopes, scope.path.canonical = p.canonical)
    (apart : q.canonical = p.canonical →
      G (F (entriesAt p.canonical scopes)) = F (G (entriesAt p.canonical scopes))) :
    atPath q (revise G) (atPath p (revise F) scopes) =
      atPath p (revise F) (atPath q (revise G) scopes) := by
  induction scopes with
  | nil => simp at there
  | cons scope r ih =>
    by_cases first : scope.path.canonical = p.canonical
    · by_cases same : q.canonical = p.canonical
      · have entries : G (F scope.entries) = F (G scope.entries) := by
          simpa [entriesAt, first] using apart same
        simp [atPath, revise, first, same, entries]
      · simp [atPath, revise, first, Ne.symm same]
    · by_cases second : scope.path.canonical = q.canonical
      · have other : q.canonical ≠ p.canonical := second ▸ first
        simp [atPath, revise, second, other]
      · have further : ∃ scope ∈ r, scope.path.canonical = p.canonical := by
          simpa [first] using there
        have ih := ih further fun same => by simpa [entriesAt, first] using apart same
        simp [atPath, first, second, ih]

theorem exists_of_mem_entriesAt {e : Option Ty × Converter} {text : String}
    (there : e ∈ entriesAt text scopes) : ∃ scope ∈ scopes, scope.path.canonical = text := by
  rw [entriesAt] at there
  cases found : scopes.find? (·.path.canonical = text) with
  | none => simp [found] at there
  | some scope =>
    have chosen := List.find?_some found
    exact ⟨scope, List.mem_of_find?_eq_some found, of_decide_eq_true chosen⟩

/-- What is registered afterwards: a registration that is refused leaves it as it is. -/
def enroll (rs : Registrations) (r : Registration) : Registrations :=
  match rs.register r.type r.path r.converter with
  | .ok made => made
  | .error _ => rs

def enrollAll (rs : Registrations) (l : List Registration) : Registrations := l.foldl enroll rs

theorem register_cases (r : Registration) :
    (r.key? = none ∧ ∀ (rs : Registrations) (c : Converter),
      ∃ fault, rs.register r.type r.path c = .error fault) ∨
    (∃ t, r.key? = some (some t, none) ∧ ∀ (rs : Registrations) (c : Converter),
      rs.register r.type r.path c = .ok { rs with byType := upsert t c rs.byType }) ∨
    ∃ type p, r.key? = some (type, some p.canonical) ∧
      ∀ (rs : Registrations) (c : Converter), rs.register r.type r.path c =
        .ok { rs with byPath := atPath p (revise (upsert type c)) rs.byPath } := by
  obtain ⟨type, path, c⟩ := r
  cases path with
  | none =>
    cases type with
    | none => exact .inl ⟨rfl, fun _ _ => ⟨_, rfl⟩⟩
    | some t => exact .inr (.inl ⟨t.erased, rfl, fun _ _ => rfl⟩)
  | some text =>
    cases read : Path.parse text with
    | error e =>
      refine .inl ⟨?_, fun rs c => ⟨.malformedPath e, ?_⟩⟩
      · simp [Registration.key?, read]
      · simp [register, read]
    | ok p =>
      refine .inr (.inr ⟨type.map Ty.erased, p, ?_, fun rs c => ?_⟩)
      · simp [Registration.key?, read]
      · simp only [register, read]
        rfl

def Holds (rs : Registrations) : Option Ty × Option String → Prop
  | (none, none) => False
  | (some t, none) => t ∈ rs.byType.map (·.1)
  | (type, some text) => type ∈ (entriesAt text rs.byPath).map (·.1)

theorem holds_enroll {r : Registration} {key : Option Ty × Option String}
    (keyed : r.key? = some key) (rs : Registrations) : (rs.enroll r).Holds key := by
  rcases register_cases r with ⟨refused, -⟩ | ⟨t, typed, made⟩ | ⟨type, p, placed, made⟩
  · rw [refused] at keyed
    cases keyed
  · obtain rfl := Option.some.inj (typed.symm.trans keyed)
    rw [enroll, made]
    exact (mem_keys_upsert _).2 (.inl rfl)
  · obtain rfl := Option.some.inj (placed.symm.trans keyed)
    rw [enroll, made]
    have there : type ∈ (entriesAt p.canonical
        (atPath p (revise (upsert type r.converter)) rs.byPath)).map (·.1) := by
      rw [entriesAt_revise, if_pos rfl]
      exact (mem_keys_upsert _).2 (.inl rfl)
    cases type <;> exact there

theorem Holds.enroll {key : Option Ty × Option String} (held : rs.Holds key) (r : Registration) :
    (rs.enroll r).Holds key := by
  rcases register_cases r with ⟨-, refused⟩ | ⟨t, -, made⟩ | ⟨type, p, -, made⟩
  · obtain ⟨fault, refused⟩ := refused rs r.converter
    rwa [Registrations.enroll, refused]
  · rw [Registrations.enroll, made]
    match key, held with
    | (some _, none), held => exact (mem_keys_upsert _).2 (.inr held)
    | (none, some _), held => exact held
    | (some _, some _), held => exact held
  · rw [Registrations.enroll, made]
    have stays (kept : Option Ty) (text : String)
        (held : kept ∈ (entriesAt text rs.byPath).map (·.1)) :
        kept ∈ (entriesAt text (atPath p (revise (upsert type r.converter)) rs.byPath)).map
          (·.1) := by
      rw [entriesAt_revise]
      split
      · exact (mem_keys_upsert _).2 (.inr held)
      · exact held
    match key, held with
    | (some _, none), held => exact held
    | (none, some text), held => exact stays _ text held
    | (some _, some text), held => exact stays _ text held

theorem enroll_enroll {r q : Registration} {key : Option Ty × Option String}
    (keyed : r.key? = some key) (keyed' : q.key? = some key) (rs : Registrations) :
    (rs.enroll r).enroll q = rs.enroll { r with converter := q.converter } := by
  rcases register_cases r with ⟨refused, -⟩ | ⟨t, typed, made⟩ | ⟨type, p, placed, made⟩
  · rw [refused] at keyed
    cases keyed
  · obtain rfl := Option.some.inj (typed.symm.trans keyed)
    rcases register_cases q with ⟨refused, -⟩ | ⟨t', typed', made'⟩ | ⟨type', p', placed', -⟩
    · simp [refused] at keyed'
    · obtain rfl : t' = t := by simpa [typed'] using keyed'
      simp only [enroll, made, made', upsert_upsert_self]
    · simp [placed'] at keyed'
  · obtain rfl := Option.some.inj (placed.symm.trans keyed)
    rcases register_cases q with ⟨refused, -⟩ | ⟨t', typed', -⟩ | ⟨type', p', placed', made'⟩
    · simp [refused] at keyed'
    · simp [typed'] at keyed'
    · obtain ⟨rfl, same⟩ : type' = type ∧ p'.canonical = p.canonical := by
        simpa [placed'] using keyed'
      have onto : upsert type' q.converter ∘ upsert type' r.converter =
          upsert type' q.converter := funext (upsert_upsert_self _ _ _)
      simp only [enroll, made, made', atPath_revise_self same, onto]

theorem enroll_comm {r q : Registration} {key : Option Ty × Option String}
    (keyed : r.key? = some key) (other : q.key? ≠ some key) (held : rs.Holds key) :
    (rs.enroll r).enroll q = (rs.enroll q).enroll r := by
  rcases register_cases q with ⟨-, refused⟩ | ⟨t', typed', made'⟩ | ⟨type', p', placed', made'⟩
  · have idle (rs : Registrations) : rs.enroll q = rs := by
      obtain ⟨fault, refused⟩ := refused rs q.converter
      rw [enroll, refused]
    rw [idle, idle]
  · rcases register_cases r with ⟨refused, -⟩ | ⟨t, typed, made⟩ | ⟨type, p, placed, made⟩
    · simp [refused] at keyed
    · obtain rfl := Option.some.inj (typed.symm.trans keyed)
      have apart : t' ≠ t := fun same => other (same ▸ typed')
      simp only [enroll, made, made', upsert_comm (l := rs.byType) held apart]
    · simp only [enroll, made, made']
  · rcases register_cases r with ⟨refused, -⟩ | ⟨t, typed, made⟩ | ⟨type, p, placed, made⟩
    · simp [refused] at keyed
    · simp only [enroll, made, made']
    · obtain rfl := Option.some.inj (placed.symm.trans keyed)
      have there : type ∈ (entriesAt p.canonical rs.byPath).map (·.1) := by
        cases type <;> exact held
      obtain ⟨e, he, -⟩ := List.mem_map.1 there
      have apart (same : p'.canonical = p.canonical) : type' ≠ type :=
        fun alike => other (by rw [placed', same, alike])
      simp only [enroll, made, made']
      rw [atPath_revise_comm (exists_of_mem_entriesAt he) fun same =>
        upsert_comm there (apart same) _ _]

section Condensed

open Registration

theorem enrollAll_of_holds {r : Registration} {key : Option Ty × Option String}
    (keyed : r.key? = some key) (held : rs.Holds key) (l : List Registration) :
    (rs.enroll r).enrollAll l =
      (rs.enroll { r with converter := latest key r.converter l }).enrollAll
        (l.filter (·.key? ≠ some key)) := by
  -- What is registered in between only has to keep the key, which stays held.
  induction l generalizing rs r with
  | nil => rfl
  | cons q rest ih =>
    by_cases same : q.key? = some key
    · have ih := ih (r := { r with converter := q.converter }) keyed held
      simpa [enrollAll, latest, same, enroll_enroll keyed same] using ih
    · have ih := ih keyed (held.enroll q)
      have moved := enroll_comm (r := { r with converter := latest key r.converter rest }) keyed
        same held
      simp only [enrollAll, latest] at ih moved
      simpa [enrollAll, latest, same, enroll_comm keyed same held, moved] using ih

theorem enrollAll_condensed (rs : Registrations) (l : List Registration) :
    rs.enrollAll (condensed l) = rs.enrollAll l := by
  induction l using condensed.induct generalizing rs with
  | case1 => rw [condensed]
  | case2 r rest refused ih =>
    rw [condensed, refused]
    exact ih _
  | case3 r rest key keyed ih =>
    have smaller (rs : Registrations) :
        rs.enrollAll (condensed (rest.filter (·.key? ≠ some key))) =
          rs.enrollAll (rest.filter (·.key? ≠ some key)) := by
      have ih := ih rs
      rwa [List.unattach_filter, List.unattach_attach] at ih
      exact fun _ _ => rfl
    rw [condensed, keyed]
    -- The registration is repeated, so that its key is held when later ones are moved to it.
    calc (rs.enroll { r with converter := latest key r.converter rest }).enrollAll
            (condensed (rest.filter (·.key? ≠ some key)))
        = (rs.enroll { r with converter := latest key r.converter rest }).enrollAll
            (rest.filter (·.key? ≠ some key)) := smaller _
      _ = ((rs.enroll r).enroll
            { r with converter := latest key r.converter rest }).enrollAll
            (rest.filter (·.key? ≠ some key)) := by
          rw [enroll_enroll keyed (q := { r with converter := latest key r.converter rest }) keyed]
      _ = ((rs.enroll r).enroll r).enrollAll rest :=
          (enrollAll_of_holds keyed (holds_enroll keyed rs) rest).symm
      _ = (rs.enroll r).enrollAll rest := by rw [enroll_enroll keyed keyed]

end Condensed

def Renewed (c : Converter) (now before : Option Converter) : Prop := now = some c ∨ now = before

namespace Renewed

variable {now before now' before' : Option Converter}

theorem same (c : Converter) (found : Option Converter) : Renewed c found found := .inr rfl

theorem or (h : Renewed c now before) (h' : Renewed c now' before') :
    Renewed c (now.or now') (before.or before') := by
  rcases h with rfl | rfl
  · exact .inl rfl
  · cases now with
    | some found => exact .inr rfl
    | none => exact h'

theorem findSome? {α : Type} {f g : α → Option Converter} {l : List α}
    (h : ∀ a, Renewed c (f a) (g a)) : Renewed c (l.findSome? f) (l.findSome? g) := by
  induction l with
  | nil => exact .same _ _
  | cons a r ih =>
    have stepwise (f : α → Option Converter) :
        (a :: r).findSome? f = (f a).or (r.findSome? f) := by
      rw [List.findSome?_cons]
      cases f a <;> rfl
    rw [stepwise, stepwise]
    exact (h a).or ih

end Renewed

theorem find?_of_malformed {text : String} {e : MalformedPath} (read : Path.parse text = .error e) :
    rs.find? σ required (some text) =
      (rs.findAt? σ text required).or (rs.findByType? σ required) := by
  rw [find?, Option.bind_some, findByPath?, read]
  cases rs.findAt? σ text required <;> rfl

theorem renewed_find? (byPath : ∀ text, Renewed c (kept.findAt? σ text required)
      (rs.findAt? σ text required))
    (byType : Renewed c (kept.findByType? σ required) (rs.findByType? σ required))
    (query : Option String) :
    Renewed c (kept.find? σ required query) (rs.find? σ required query) := by
  cases query with
  | none => exact byType
  | some text =>
    cases read : Path.parse text with
    | error e =>
      rw [find?_of_malformed read, find?_of_malformed read]
      exact (byPath text).or byType
    | ok path =>
      rw [find?_of_parse read, find?_of_parse read]
      exact (byPath text).or ((Renewed.findSome? byPath).or byType)

theorem renewed_findByType? (t : Ty) :
    Renewed c ({ rs with byType := upsert t c rs.byType }.findByType? σ required)
      (rs.findByType? σ required) := by
  unfold findByType?
  split
  · exact .same _ _
  · dsimp only
    by_cases exact : required.erased = t
    · rw [exact, lookup_upsert_self]
      exact .inl rfl
    · rw [lookup_upsert_of_ne _ _ exact]
      cases rs.byType.lookup required.erased with
      | some found => exact .same _ _
      | none => exact find?_upsert (fun u => σ.assignable u required) t c rs.byType

theorem renewed_of_register {type : Option Ty} {path : Option String}
    (made : rs.register type path c = .ok kept) (query : Option String) :
    Renewed c (kept.find? σ required query) (rs.find? σ required query) := by
  rcases register_cases ⟨type, path, c⟩ with ⟨-, refused⟩ | ⟨t, -, filed⟩ | ⟨type, p, -, filed⟩
  · obtain ⟨fault, refused⟩ := refused rs c
    rw [refused] at made
    cases made
  · obtain rfl := Except.ok.inj ((filed rs c).symm.trans made)
    apply renewed_find?
    · exact fun _ => .same _ _
    · exact renewed_findByType? t
  · obtain rfl := Except.ok.inj ((filed rs c).symm.trans made)
    apply renewed_find?
    case byType => exact .same _ _
    intro text
    rw [findAt?_eq, findAt?_eq, entriesAt_revise]
    split
    · exact find?_upsert (fun t => serves σ t required) type c _
    · exact .same _ _

/-- Lookups that come to a registration: those for its type where no path has a converter, and
if it is one for a path, those at that path where it is the only one of the path that serves. -/
structure InForce (σ : Schema) (rs kept : Registrations) (r : Registration) : Prop where
  byType : ∀ t required, r.type = some t → r.path = none → required.isUnknown = false →
    required.erased = t.erased → ∀ query : Option String,
      (query.bind fun text => kept.findByPath? σ text required) = none →
        kept.find? σ required query = some r.converter
  byPath : ∀ text p required, r.path = some text → Path.parse text = .ok p →
    serves σ (r.type.map Ty.erased) required = true →
    (∀ e ∈ entriesAt p.canonical rs.byPath, serves σ e.1 required = true →
      e.1 = r.type.map Ty.erased) →
        kept.find? σ required (some p.canonical) = some r.converter

/-- The same registrations, walked in another order. -/
structure Rearranged (rs kept : Registrations) : Prop where
  types : rs.byType.Perm kept.byType
  paths : rs.byPath.Perm kept.byPath

/-- A type and a path are registered once. -/
structure Distinct (rs : Registrations) : Prop where
  types : (rs.byType.map (·.1)).Nodup
  paths : (rs.byPath.map (·.path.canonical)).Nodup

/-- A lookup by type has one outcome: the type is registered, or at most one registered type
can be assigned. -/
def Definite (σ : Schema) (rs : Registrations) (required : Ty) : Prop :=
  required.erased ∈ rs.byType.map (·.1) ∨
    ∀ e ∈ rs.byType, ∀ e' ∈ rs.byType, σ.assignable e.1 required = true →
      σ.assignable e'.1 required = true → e.1 = e'.1

theorem mem_canonicals_atPath {text : String}
    (h : text ∈ (atPath p (revise F) scopes).map (·.path.canonical)) :
    text = p.canonical ∨ text ∈ scopes.map (·.path.canonical) := by
  obtain ⟨scope, there, rfl⟩ := List.mem_map.1 h
  have path (scope : PathScope) : (revise F scope).path = scope.path := rfl
  rcases has_atPath path ⟨scope, there, rfl⟩ with same | ⟨earlier, he, same⟩
  · exact .inl (congrArg joined same.symm)
  · exact .inr (List.mem_map.2 ⟨earlier, he, congrArg joined same⟩)

theorem nodup_canonicals_atPath (distinct : (scopes.map (·.path.canonical)).Nodup) :
    ((atPath p (revise F) scopes).map (·.path.canonical)).Nodup := by
  induction scopes with
  | nil => simp [atPath]
  | cons scope r ih =>
    rw [List.map_cons, List.nodup_cons] at distinct
    rw [atPath]
    split
    · exact List.nodup_cons.2 distinct
    · rename_i other
      refine List.nodup_cons.2 ⟨fun there => ?_, ih distinct.2⟩
      exact (mem_canonicals_atPath there).elim other distinct.1

namespace Distinct

theorem enroll (h : rs.Distinct) (r : Registration) : (rs.enroll r).Distinct := by
  rcases register_cases r with ⟨-, refused⟩ | ⟨t, -, made⟩ | ⟨type, p, -, made⟩
  · obtain ⟨fault, refused⟩ := refused rs r.converter
    rwa [Registrations.enroll, refused]
  · rw [Registrations.enroll, made]
    exact ⟨nodup_keys_upsert h.types _ _, h.paths⟩
  · rw [Registrations.enroll, made]
    exact ⟨h.types, nodup_canonicals_atPath h.paths⟩

theorem enrollAll (h : rs.Distinct) (l : List Registration) : (rs.enrollAll l).Distinct := by
  induction l generalizing rs with
  | nil => exact h
  | cons r rest ih => exact ih (h.enroll r)

end Distinct

theorem Reached.distinct (reached : rs.Reached) : rs.Distinct := by
  refine ⟨?_, ?_⟩
  · induction reached with
    | empty => exact List.nodup_nil
    | @register rs made _ type path c registered ih =>
      rcases register_cases ⟨type, path, c⟩ with ⟨-, refused⟩ | ⟨t, -, filed⟩ | ⟨_, p, -, filed⟩
      · obtain ⟨fault, refused⟩ := refused rs c
        rw [refused] at registered
        cases registered
      · obtain rfl := Except.ok.inj ((filed rs c).symm.trans registered)
        exact nodup_keys_upsert ih _ _
      · obtain rfl := Except.ok.inj ((filed rs c).symm.trans registered)
        exact ih
    | takenOver _ _ ih => exact ih
  · have filed := reached.filed
    rw [List.Nodup, List.pairwise_map]
    exact filed.apart.imp_of_mem fun ha hb apart same =>
      apart (((filed.each _ ha).readable.joined_inj (filed.each _ hb).readable).1 same)

theorem findAt?_of_rearranged (distinct : rs.Distinct) (order : rs.Rearranged kept)
    (text : String) : kept.findAt? σ text required = rs.findAt? σ text required := by
  rw [findAt?, findAt?, find?_eq_of_perm order.paths]
  intro a ha b hb same same'
  exact List.inj_on_of_nodup_map distinct.paths ha hb
    ((of_decide_eq_true same).trans (of_decide_eq_true same').symm)

theorem findByType?_of_rearranged (distinct : rs.Distinct) (order : rs.Rearranged kept)
    (definite : rs.Definite σ required) :
    kept.findByType? σ required = rs.findByType? σ required := by
  rw [findByType?, findByType?, lookup_eq_of_perm order.types distinct.types]
  rcases definite with exact | single
  · obtain ⟨found, there⟩ : ∃ found, rs.byType.lookup required.erased = some found := by
      obtain ⟨e, he, same⟩ := List.mem_map.1 exact
      exact Option.isSome_iff_exists.1 (List.lookup_isSome_iff.2 ⟨e, he, beq_iff_eq.2 same.symm⟩)
    rw [there]
  · rw [find?_eq_of_perm order.types]
    intro a ha b hb serves serves'
    exact List.inj_on_of_nodup_map distinct.types ha hb (single a ha b hb serves serves')

/-- A lookup does not depend on the order in which the registrations are walked. -/
theorem find?_of_rearranged (distinct : rs.Distinct) (order : rs.Rearranged kept)
    (definite : rs.Definite σ required) (query : Option String) :
    kept.find? σ required query = rs.find? σ required query := by
  have byPath (text : String) : kept.findAt? σ text required = rs.findAt? σ text required :=
    findAt?_of_rearranged distinct order text
  have byType := findByType?_of_rearranged distinct order definite
  simp only [find?, findByPath?, byPath, byType]

theorem hasElementConverter_of_rearranged (order : rs.Rearranged kept) (elem : Option Ty)
    (path : Option String) :
    kept.hasElementConverter σ elem path = rs.hasElementConverter σ elem path := by
  have types (p : Ty × Converter → Bool) : kept.byType.any p = rs.byType.any p :=
    Bool.eq_iff_iff.2 (by simp only [List.any_eq_true, order.types.mem_iff])
  have paths (p : PathScope → Bool) : kept.byPath.any p = rs.byPath.any p :=
    Bool.eq_iff_iff.2 (by simp only [List.any_eq_true, order.paths.mem_iff])
  simp only [hasElementConverter, types, paths]

theorem inForce_of_register {r : Registration} {made : Registrations} (distinct : made.Distinct)
    (filed : rs.register r.type r.path r.converter = .ok made) (order : made.Rearranged kept) :
    InForce σ rs kept r := by
  obtain ⟨type, path, c⟩ := r
  refine ⟨?_, ?_⟩
  · rintro t required rfl rfl known same query elsewhere
    obtain rfl := Except.ok.inj filed
    have there : kept.byType.lookup required.erased = some c := by
      rw [lookup_eq_of_perm order.types distinct.types, same]
      exact lookup_upsert_self _ _ _
    simp [find?, elsewhere, findByType?, known, there]
  · rintro text p required rfl read serving only
    have unfolded : rs.register type (some text) c =
        .ok { rs with byPath := atPath p (·.register type c) rs.byPath } := by
      simp only [register, read]
    obtain rfl := Except.ok.inj (unfolded.symm.trans filed)
    have entries : entriesAt p.canonical (atPath p (·.register type c) rs.byPath) =
        upsert (type.map Ty.erased) c (entriesAt p.canonical rs.byPath) :=
      (entriesAt_revise p p.canonical rs.byPath).trans (if_pos rfl)
    have found : kept.findAt? σ p.canonical required = some c := by
      rw [findAt?_of_rearranged distinct order, findAt?_eq]
      dsimp only
      rw [entries]
      exact find?_upsert_self (p := fun t => serves σ t required) serving only c
    simp [find?, findByPath?, found]

theorem fault_of_register {r : Registration} {fault : RegistrationFault}
    (refused : rs.register r.type r.path r.converter = .error fault) :
    fault = .missingScope ∧ r.type = none ∧ r.path = none ∨
      ∃ text e, fault = .malformedPath e ∧ r.path = some text ∧ Path.parse text = .error e := by
  obtain ⟨type, path, c⟩ := r
  cases path with
  | none =>
    cases type with
    | none => exact .inl ⟨(Except.error.inj refused).symm, rfl, rfl⟩
    | some t => cases refused
  | some text =>
    cases read : Path.parse text with
    | error e =>
      simp only [register, read] at refused
      exact .inr ⟨text, e, (Except.error.inj refused).symm, rfl, read⟩
    | ok p =>
      simp only [register, read] at refused
      cases refused

/-- A registration that is made is found where it is in force, and changes any other lookup to
its converter or not at all; one that is refused changes nothing. Registrations with one key do
what a single one does at the place of the first, with the last converter. So it is in whatever
order the tables are walked, for a lookup that has one outcome. -/
theorem latest_of_enroll (distinct : rs.Distinct) (σ : Schema) :
    (∀ r made, rs.register r.type r.path r.converter = .ok made →
      rs.enroll r = made ∧ ∀ kept, made.Rearranged kept → InForce σ rs kept r ∧ ∀ required,
        made.Definite σ required → ∀ query,
          kept.find? σ required query = some r.converter ∨
            kept.find? σ required query = rs.find? σ required query) ∧
    (∀ r fault, rs.register r.type r.path r.converter = .error fault →
      rs.enroll r = rs ∧
        (fault = .missingScope ∧ r.type = none ∧ r.path = none ∨
          ∃ text e, fault = .malformedPath e ∧ r.path = some text ∧
            Path.parse text = .error e)) ∧
    ∀ l, rs.enrollAll (Registration.condensed l) = rs.enrollAll l ∧
      ∀ all, (rs.enrollAll l).Rearranged all →
      ∀ once, (rs.enrollAll (Registration.condensed l)).Rearranged once →
        (∀ required, (rs.enrollAll l).Definite σ required → ∀ query,
          once.find? σ required query = all.find? σ required query) ∧
        (∀ elem path,
          once.hasElementConverter σ elem path = all.hasElementConverter σ elem path) ∧
        ∀ s, once.byPath = all.byPath → (once.below s).byPath = (all.below s).byPath ∧
          (once.below s).byType.Perm (all.below s).byType := by
  refine ⟨fun r made filed => ?_, fun r fault refused => ⟨?_, fault_of_register refused⟩,
    fun l => ?_⟩
  · have same : rs.enroll r = made := by rw [enroll, filed]
    have own : made.Distinct := same ▸ distinct.enroll r
    refine ⟨same, fun kept order =>
      ⟨inForce_of_register own filed order, fun required definite query => ?_⟩⟩
    rw [find?_of_rearranged own order definite]
    exact renewed_of_register filed query
  · rw [enroll, refused]
  · have same := enrollAll_condensed rs l
    refine ⟨same, fun all order once order' => ?_⟩
    rw [same] at order'
    have kept := distinct.enrollAll l
    refine ⟨fun required definite query => ?_, fun elem path => ?_, fun s paths => ⟨?_, ?_⟩⟩
    · rw [find?_of_rearranged kept order definite, find?_of_rearranged kept order' definite]
    · rw [hasElementConverter_of_rearranged order, hasElementConverter_of_rearranged order']
    · rw [below, below, paths]
    · exact order'.types.symm.trans order.types

/-! Prices of all texts, which are changed after those of the rows are set. -/

def priced (c : Converter) : Registration := ⟨some .text, none, c⟩

def pricedRows : Registration := ⟨none, some "rows", cents⟩

theorem latest_of_enroll_prices :
    empty.Distinct ∧
      Registration.condensed [priced cents, pricedRows, priced euros] =
        [priced euros, pricedRows] ∧
      empty.enrollAll [priced euros, pricedRows] =
        empty.enrollAll [priced cents, pricedRows, priced euros] ∧
      (∃ made, empty.register (some .text) none cents = .ok made ∧
        made.Definite .empty .text ∧ made.find? .empty .text none = some cents ∧
        (made.find? .empty .text none = some cents ∨
          made.find? .empty .text none = empty.find? .empty .text none)) ∧
      empty.register none none cents = .error .missingScope ∧
      empty.enroll ⟨none, none, cents⟩ = empty := by
  have distinct := Reached.empty.distinct
  have read : Path.parse "rows" = .ok ⟨[⟨"rows", []⟩]⟩ := by cbv
  have once : Registration.condensed [priced cents, pricedRows, priced euros] =
      [priced euros, pricedRows] := by
    simp [Registration.condensed, Registration.key?, Registration.latest, priced, pricedRows,
      read]
  obtain ⟨made, refused, repeated⟩ := latest_of_enroll distinct .empty
  obtain ⟨-, found⟩ := made (priced cents) ⟨[(.text, cents)], []⟩ rfl
  have definite : Definite .empty ⟨[(.text, cents)], []⟩ .text := .inl List.mem_cons_self
  obtain ⟨inForce, renewed⟩ := found _ ⟨.refl _, .refl _⟩
  refine ⟨distinct, once, ?_, ⟨_, rfl, definite, ?_, renewed .text definite none⟩, rfl, ?_⟩
  · rw [← (repeated [priced cents, pricedRows, priced euros]).1, once]
  · exact inForce.byType .text .text rfl rfl rfl rfl none rfl
  · exact (refused ⟨none, none, cents⟩ .missingScope rfl).1

end Registrations

end PropertyAccess
