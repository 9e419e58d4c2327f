import PropertyAccess.Proofs.Path.Canonical
import PropertyAccess.Proofs.Path.Variants
import PropertyAccess.Conversion.Registrations

/-! What is registered at a path, read by its segments. Scopes are filed under distinct
paths that can be read again, each with one converter for a type. A lookup below a property
is then a lookup above it, at the path with that property in front: with the keys that
lead there or without any. -/

namespace PropertyAccess

theorem upsert_of_not_mem {α β : Type} [DecidableEq α] {key : α} {l : List (α × β)}
    (absent : key ∉ l.map (·.1)) (value : β) : upsert key value l = l ++ [(key, value)] := by
  induction l with
  | nil => rfl
  | cons e r ih =>
    obtain ⟨k, v⟩ := e
    rw [List.map_cons, List.mem_cons, not_or] at absent
    rw [upsert, if_neg (Ne.symm absent.1), ih absent.2, List.cons_append]

theorem keys_upsert_of_mem {α β : Type} [DecidableEq α] {key : α} {l : List (α × β)}
    (there : key ∈ l.map (·.1)) (value : β) : (upsert key value l).map (·.1) = l.map (·.1) := by
  induction l with
  | nil => simp at there
  | cons e r ih =>
    obtain ⟨k, v⟩ := e
    rw [upsert]
    split
    · rfl
    · rename_i other
      have later := (List.mem_cons.1 there).resolve_left (Ne.symm other)
      rw [List.map_cons, List.map_cons, ih later]

theorem nodup_keys_upsert {α β : Type} [DecidableEq α] {l : List (α × β)}
    (distinct : (l.map (·.1)).Nodup) (key : α) (value : β) :
    ((upsert key value l).map (·.1)).Nodup := by
  by_cases there : key ∈ l.map (·.1)
  · rwa [keys_upsert_of_mem there]
  · rw [upsert_of_not_mem there, List.map_append, List.nodup_append]
    refine ⟨distinct, by simp, fun k hk other ho same => there ?_⟩
    obtain rfl : other = key := List.mem_singleton.1 ho
    rwa [← same]

theorem mem_upsert {α β : Type} [DecidableEq α] {key : α} {value : β} {e : α × β}
    {l : List (α × β)} (h : e ∈ upsert key value l) : e = (key, value) ∨ e ∈ l := by
  induction l with
  | nil => exact .inl (List.mem_singleton.1 h)
  | cons x r ih =>
    obtain ⟨k, v⟩ := x
    rw [upsert] at h
    split at h
    · rename_i same
      exact (List.mem_cons.1 h).imp (same ▸ ·) (List.mem_cons_of_mem _)
    · rcases List.mem_cons.1 h with rfl | h
      · exact .inr List.mem_cons_self
      · exact (ih h).imp_right (List.mem_cons_of_mem _)

def Readable (segments : List Segment) : Prop := segments ≠ [] ∧ ∀ s ∈ segments, s.Readable

theorem Segment.Readable.withKeys {s : Segment} (hs : s.Readable) (n : Nat) :
    (s.withKeys n).Readable :=
  ⟨hs.name, fun key hk => hs.keys key (List.mem_of_mem_take hk)⟩

theorem Segment.Outlines.readable {head s : Segment} (h : head.Outlines s) (hs : s.Readable) :
    head.Readable := by
  rcases h with rfl | rfl
  · exact hs
  · exact hs.withKeys 0

namespace Readable

variable {segments others : List Segment} {s : Segment}

theorem cons (hs : s.Readable) (h : Readable segments) : Readable (s :: segments) :=
  ⟨List.cons_ne_nil _ _, List.forall_mem_cons.2 ⟨hs, h.2⟩⟩

theorem joined_inj (h : Readable segments) (h' : Readable others) :
    joined segments = joined others ↔ segments = others := by
  constructor
  · intro same
    have chars : joinedChars segments = joinedChars others := by
      simpa [joined] using congrArg String.toList same
    have read := Path.scan_joinedChars h.1 h.2
    rw [chars, Path.scan_joinedChars h'.1 h'.2] at read
    exact (Except.ok.inj read).symm
  · exact congrArg joined

theorem parse_joined (h : Readable segments) : Path.parse (joined segments) = .ok ⟨segments⟩ := by
  rw [Path.parse_ok, joined, String.toList_ofList]
  exact Path.scan_joinedChars h.1 h.2

end Readable

theorem readable_of_mem_outlines {o segments : List Segment} (ho : o ∈ Path.outlines segments)
    (hs : ∀ s ∈ segments, s.Readable) : ∀ s ∈ o, s.Readable := by
  induction segments generalizing o with
  | nil => simp [List.mem_singleton.1 ho]
  | cons s r ih =>
    obtain ⟨head, tail, outlined, there, rfl⟩ := Path.mem_outlines_cons.1 ho
    rw [List.forall_mem_cons] at hs ⊢
    exact ⟨outlined.readable hs.1, ih there hs.2⟩

namespace PathScope

def put (entries : List (Option Ty × Converter)) (e : Option Ty × Converter) :
    List (Option Ty × Converter) :=
  upsert (e.1.map Ty.erased) e.2 entries

theorem path_registerAll (entries : List (Option Ty × Converter)) (scope : PathScope) :
    (scope.registerAll entries).path = scope.path := by
  unfold registerAll
  induction entries generalizing scope with
  | nil => rfl
  | cons e r ih => exact ih _

theorem entries_registerAll (entries : List (Option Ty × Converter)) (scope : PathScope) :
    (scope.registerAll entries).entries = entries.foldl put scope.entries := by
  unfold registerAll
  induction entries generalizing scope with
  | nil => rfl
  | cons e r ih => exact ih _

structure Filed (scope : PathScope) : Prop where
  readable : Readable scope.path.segments
  erased : ∀ e ∈ scope.entries, e.1.map Ty.erased = e.1
  distinct : (scope.entries.map (·.1)).Nodup

variable {scope : PathScope}

theorem Filed.register (h : scope.Filed) (type : Option Ty) (c : Converter) :
    (scope.register type c).Filed := by
  refine ⟨h.readable, fun e he => ?_, nodup_keys_upsert h.distinct _ _⟩
  rcases mem_upsert he with rfl | he
  · cases type <;> simp
  · exact h.erased e he

theorem Filed.registerAll (h : scope.Filed) (entries : List (Option Ty × Converter)) :
    (scope.registerAll entries).Filed := by
  unfold PathScope.registerAll
  induction entries generalizing scope with
  | nil => exact h
  | cons e r ih => exact ih (h.register e.1 e.2)

theorem Filed.foldl_put (h : scope.Filed) : scope.entries.foldl put [] = scope.entries := by
  have onto : ∀ (entries earlier : List (Option Ty × Converter)),
      (∀ e ∈ entries, e.1.map Ty.erased = e.1) → ((earlier ++ entries).map (·.1)).Nodup →
      entries.foldl put earlier = earlier ++ entries := by
    intro entries
    induction entries with
    | nil => simp
    | cons e r ih =>
      intro earlier erased distinct
      rw [List.forall_mem_cons] at erased
      have absent : e.1 ∉ earlier.map (·.1) := by
        rw [List.map_append, List.nodup_append] at distinct
        exact fun there => distinct.2.2 _ there _ List.mem_cons_self rfl
      rw [List.foldl_cons, put, erased.1, upsert_of_not_mem absent,
        ih _ erased.2 (by simpa using distinct), List.append_assoc, List.singleton_append]
  simpa using onto scope.entries [] h.erased (by simpa using h.distinct)

/-- What is registered for a canonical text. -/
def entriesAt (text : String) (scopes : List PathScope) : List (Option Ty × Converter) :=
  ((scopes.find? (·.path.canonical = text)).map (·.entries)).getD []

end PathScope

namespace Registrations

open PathScope

structure Filed (scopes : List PathScope) : Prop where
  each : ∀ scope ∈ scopes, scope.Filed
  apart : scopes.Pairwise fun a b => a.path.segments ≠ b.path.segments

def Has (scopes : List PathScope) (segments : List Segment) : Prop :=
  ∃ scope ∈ scopes, scope.path.segments = segments

variable {σ : Schema} {rs : Registrations} {scopes : List PathScope} {segments tail : List Segment}
  {s : Segment} {required : Ty}

theorem findAt?_eq (text : String) : rs.findAt? σ text required =
    ((entriesAt text rs.byPath).find? fun e => serves σ e.1 required).map (·.2) := by
  unfold findAt? entriesAt
  cases rs.byPath.find? (·.path.canonical = text) <;> rfl

theorem entriesAt_atPath {change : PathScope → PathScope} (path : Path) (text : String)
    {f : List (Option Ty × Converter) → List (Option Ty × Converter)}
    (hp : ∀ scope, (change scope).path = scope.path)
    (hf : ∀ scope, (change scope).entries = f scope.entries) (scopes : List PathScope) :
    entriesAt text (atPath path change scopes) =
      if path.canonical = text then f (entriesAt text scopes) else entriesAt text scopes := by
  induction scopes with
  | nil =>
    by_cases here : path.canonical = text <;> simp [atPath, entriesAt, hp, hf, here]
  | cons scope r ih =>
    simp only [entriesAt] at ih ⊢
    rw [atPath]
    by_cases same : scope.path.canonical = path.canonical
    · rw [if_pos same]
      by_cases here : path.canonical = text
      · simp [hp, hf, same, here]
      · simp [hp, same, here]
    · rw [if_neg same]
      by_cases here : scope.path.canonical = text
      · have other : path.canonical ≠ text := fun h => same (here.trans h.symm)
        simp [here, other]
      · simpa [here] using ih

theorem has_atPath {path : Path} {change : PathScope → PathScope}
    (hp : ∀ scope, (change scope).path = scope.path)
    (h : Has (atPath path change scopes) segments) :
    path.segments = segments ∨ Has scopes segments := by
  induction scopes with
  | nil =>
    obtain ⟨scope, hs, rfl⟩ := h
    rw [List.mem_singleton.1 hs, hp]
    exact .inl rfl
  | cons scope r ih =>
    rw [atPath] at h
    split at h
    · obtain ⟨t, ht, rfl⟩ := h
      rcases List.mem_cons.1 ht with rfl | ht
      · exact .inr ⟨scope, List.mem_cons_self, by rw [hp]⟩
      · exact .inr ⟨t, List.mem_cons_of_mem _ ht, rfl⟩
    · obtain ⟨t, ht, rfl⟩ := h
      rcases List.mem_cons.1 ht with rfl | ht
      · exact .inr ⟨t, List.mem_cons_self, rfl⟩
      · exact (ih ⟨t, ht, rfl⟩).imp_right fun ⟨u, hu, same⟩ => ⟨u, List.mem_cons_of_mem _ hu, same⟩

namespace Filed

theorem nil : Filed [] := ⟨by simp, .nil⟩

theorem tail_ {scope : PathScope} (h : Filed (scope :: scopes)) : Filed scopes :=
  ⟨fun s hs => h.each s (List.mem_cons_of_mem _ hs), h.apart.of_cons⟩

theorem atPath {path : Path} {change : PathScope → PathScope} (h : Filed scopes)
    (readable : Readable path.segments) (hp : ∀ scope, (change scope).path = scope.path)
    (hc : ∀ scope : PathScope, scope.Filed → (change scope).Filed) :
    Filed (Registrations.atPath path change scopes) := by
  induction scopes with
  | nil =>
    have made : PathScope.Filed (change ⟨path, []⟩) := hc _ ⟨readable, by simp, by simp⟩
    exact ⟨fun s hs => List.mem_singleton.1 hs ▸ made, List.pairwise_singleton _ _⟩
  | cons scope r ih =>
    have first := h.each scope List.mem_cons_self
    have others := (List.pairwise_cons.1 h.apart).1
    rw [Registrations.atPath]
    split
    · refine ⟨?_, List.pairwise_cons.2 ⟨?_, h.apart.of_cons⟩⟩
      · rw [List.forall_mem_cons]
        exact ⟨hc _ first, h.tail_.each⟩
      · rwa [hp]
    · rename_i other
      have rest := ih h.tail_
      refine ⟨?_, List.pairwise_cons.2 ⟨fun t ht same => ?_, rest.apart⟩⟩
      · rw [List.forall_mem_cons]
        exact ⟨first, rest.each⟩
      · -- The path of the changed scope is not that of the first one.
        rcases has_atPath hp ⟨t, ht, rfl⟩ with here | ⟨u, hu, here⟩
        · exact other (congrArg joined (same.trans here.symm))
        · exact others u hu (same.trans here.symm)

theorem merge (h : Filed scopes) {path : Path} (readable : Readable path.segments)
    (entries : List (Option Ty × Converter)) : Filed (merge path entries scopes) :=
  h.atPath readable (path_registerAll entries) fun _ hs => hs.registerAll entries

theorem register (h : Filed rs.byPath) {type : Option Ty} {path : Option String} {c : Converter}
    {made : Registrations} (registered : rs.register type path c = .ok made) :
    Filed made.byPath := by
  unfold Registrations.register at registered
  split at registered
  · cases registered
  · obtain rfl := Except.ok.inj registered
    exact h
  · split at registered
    · cases registered
    · rename_i read
      obtain rfl := Except.ok.inj registered
      exact h.atPath (Path.readable_of_parse read) (fun _ => rfl) fun _ hs => hs.register type c

theorem entriesAt_eq (h : Filed scopes) {scope : PathScope} (there : scope ∈ scopes) :
    entriesAt (joined scope.path.segments) scopes = scope.entries := by
  induction scopes with
  | nil => simp at there
  | cons first r ih =>
    rcases List.mem_cons.1 there with rfl | later
    · simp [entriesAt, Path.canonical]
    · have other : first.path.canonical ≠ joined scope.path.segments := fun same =>
        (List.pairwise_cons.1 h.apart).1 scope later
          (((h.each _ List.mem_cons_self).readable.joined_inj
            (h.each _ there).readable).1 same)
      have found := ih h.tail_ later
      simpa [entriesAt, other] using found

theorem entriesAt_of_not_has (h : Filed scopes) (readable : Readable segments)
    (absent : ¬ Has scopes segments) : entriesAt (joined segments) scopes = [] := by
  have none_ : scopes.find? (·.path.canonical = joined segments) = none := by
    rw [List.find?_eq_none]
    intro scope there same
    exact absent ⟨scope, there,
      ((h.each _ there).readable.joined_inj readable).1 (of_decide_eq_true same)⟩
  rw [entriesAt, none_]
  rfl

end Filed

/-- A scope is taken over if its path leads through the segment, with its keys or without
any, and goes on below. -/
theorem takeOver_cases (hs : s.Readable) {scope : PathScope} (filed : scope.Filed)
    (scopes : List PathScope) :
    (∃ head later, head.Outlines s ∧ Readable later ∧ scope.path.segments = head :: later ∧
      takeOver s scopes scope = merge ⟨later⟩ scope.entries scopes) ∨
    ((∀ head later, later ≠ [] → head.Outlines s → scope.path.segments ≠ head :: later) ∧
      takeOver s scopes scope = scopes) := by
  have outlines_iff (head : Segment) (hh : head.Readable) :
      head.canonical = s.canonical ∨ head.canonical = s.canonicalName ↔ head.Outlines s := by
    rw [Segment.canonicalName_eq, Segment.canonical_inj hh hs,
      Segment.canonical_inj hh (hs.withKeys 0), Segment.Outlines]
  unfold takeOver
  split
  · rename_i head next rest same
    have all := List.forall_mem_cons.1 (same ▸ filed.readable.2)
    by_cases outlined : head.Outlines s
    · exact .inl ⟨head, _, outlined, ⟨List.cons_ne_nil _ _, all.2⟩, same,
        if_pos ((outlines_iff head all.1).2 outlined)⟩
    · refine .inr ⟨fun other later _ outlines here => outlined ?_,
        if_neg fun named => outlined ((outlines_iff head all.1).1 named)⟩
      rwa [(List.cons.inj (same.symm.trans here)).1]
  · rename_i short
    refine .inr ⟨fun head later ne _ here => ?_, rfl⟩
    cases later with
    | nil => exact ne rfl
    | cons next rest => exact short head next rest here

theorem Filed.takeOver (h : Filed scopes) (hs : s.Readable) {scope : PathScope}
    (filed : scope.Filed) : Filed (takeOver s scopes scope) := by
  rcases takeOver_cases hs filed scopes with ⟨_, _, _, later, _, taken⟩ | ⟨_, left⟩
  · rw [taken]
    exact h.merge later _
  · rwa [left]

theorem Filed.below (h : Filed rs.byPath) (hs : s.Readable) : Filed (rs.below s).byPath := by
  have onto : ∀ (from_ gathered : List PathScope), (∀ scope ∈ from_, scope.Filed) →
      Filed gathered → Filed (from_.foldl (Registrations.takeOver s) gathered) := by
    intro from_
    induction from_ with
    | nil => exact fun _ _ hg => hg
    | cons scope r ih =>
      intro gathered hf hg
      rw [List.forall_mem_cons] at hf
      exact ih _ hf.2 (hg.takeOver hs hf.1)
  exact onto _ _ h.each .nil

theorem entriesAt_takeOver (hs : s.Readable) (readable : Readable tail) {scope : PathScope}
    (filed : scope.Filed) (scopes : List PathScope) :
    ((∃ head, head.Outlines s ∧ scope.path.segments = head :: tail) →
      entriesAt (joined tail) (takeOver s scopes scope) =
        scope.entries.foldl put (entriesAt (joined tail) scopes)) ∧
    ((¬ ∃ head, head.Outlines s ∧ scope.path.segments = head :: tail) →
      entriesAt (joined tail) (takeOver s scopes scope) = entriesAt (joined tail) scopes) := by
  rcases takeOver_cases hs filed scopes with ⟨head, later, outlined, ends, same, taken⟩ | ⟨no, left⟩
  · have merged : entriesAt (joined tail) (takeOver s scopes scope) =
        if later = tail then scope.entries.foldl put (entriesAt (joined tail) scopes)
        else entriesAt (joined tail) scopes := by
      rw [taken, merge, entriesAt_atPath (f := fun others => scope.entries.foldl put others) _ _
        (path_registerAll _) (entries_registerAll _)]
      simp only [Path.canonical, ends.joined_inj readable]
    constructor
    · rintro ⟨other, -, here⟩
      rw [merged, if_pos (List.cons.inj (same.symm.trans here)).2]
    · intro elsewhere
      have apart : later ≠ tail := by
        rintro rfl
        exact elsewhere ⟨head, outlined, same⟩
      rw [merged, if_neg apart]
  · rw [left]
    refine ⟨?_, fun _ => rfl⟩
    rintro ⟨head, outlined, here⟩
    exact absurd here (no head tail readable.1 outlined)

theorem entriesAt_foldl_takeOver (hs : s.Readable) (readable : Readable tail)
    {from_ gathered : List PathScope} (filed : ∀ scope ∈ from_, scope.Filed)
    (elsewhere : ∀ head : Segment, head.Outlines s → ¬ Has from_ (head :: tail)) :
    entriesAt (joined tail) (from_.foldl (takeOver s) gathered) =
      entriesAt (joined tail) gathered := by
  induction from_ generalizing gathered with
  | nil => rfl
  | cons scope r ih =>
    rw [List.forall_mem_cons] at filed
    rw [List.foldl_cons, ih filed.2 fun head outlined ⟨t, ht, here⟩ =>
      elsewhere head outlined ⟨t, List.mem_cons_of_mem _ ht, here⟩]
    refine (entriesAt_takeOver hs readable filed.1 gathered).2 ?_
    rintro ⟨head, outlined, here⟩
    exact elsewhere head outlined ⟨scope, List.mem_cons_self, here⟩

/-- Below a segment, the one path that leads through it to `tail` is found at `tail`. -/
theorem entriesAt_below_of_has (h : Filed rs.byPath) (hs : s.Readable) (readable : Readable tail)
    {head : Segment} (outlined : head.Outlines s) (has : Has rs.byPath (head :: tail))
    (only : ∀ other : Segment, other.Outlines s → Has rs.byPath (other :: tail) → other = head) :
    entriesAt (joined tail) (rs.below s).byPath = entriesAt (joined (head :: tail)) rs.byPath := by
  obtain ⟨scope, there, here⟩ := has
  rw [← here, h.entriesAt_eq there]
  obtain ⟨before, after, split⟩ := List.append_of_mem there
  have each := h.each
  have apart := h.apart
  rw [split] at only each apart
  rw [List.pairwise_append, List.pairwise_cons] at apart
  have silent : ∀ other : Segment, other.Outlines s →
      ¬ Has before (other :: tail) ∧ ¬ Has after (other :: tail) := by
    refine fun other outlines => ⟨?_, ?_⟩
    · rintro ⟨t, ht, same⟩
      have head_ := only other outlines ⟨t, List.mem_append_left _ ht, same⟩
      exact apart.2.2 t ht scope List.mem_cons_self (by rw [same, here, head_])
    · rintro ⟨t, ht, same⟩
      have head_ := only other outlines
        ⟨t, List.mem_append_right _ (List.mem_cons_of_mem _ ht), same⟩
      exact apart.2.1.1 t ht (by rw [same, here, head_])
  have filed : scope.Filed := each scope (List.mem_append_right _ List.mem_cons_self)
  calc entriesAt (joined tail) (rs.below s).byPath
      = entriesAt (joined tail) (after.foldl (takeOver s)
          (takeOver s (before.foldl (takeOver s) []) scope)) := by
        rw [below, split, List.foldl_append, List.foldl_cons]
    _ = entriesAt (joined tail) (takeOver s (before.foldl (takeOver s) []) scope) :=
        entriesAt_foldl_takeOver hs readable
          (fun t ht => each t (List.mem_append_right _ (List.mem_cons_of_mem _ ht)))
          fun other outlines => (silent other outlines).2
    _ = scope.entries.foldl put (entriesAt (joined tail) (before.foldl (takeOver s) [])) :=
        (entriesAt_takeOver hs readable filed _).1 ⟨head, outlined, here⟩
    _ = scope.entries.foldl put (entriesAt (joined tail) []) := by
        rw [entriesAt_foldl_takeOver hs readable
          (fun t ht => each t (List.mem_append_left _ ht))
          fun other outlines => (silent other outlines).1]
    _ = scope.entries := filed.foldl_put

theorem has_below (h : Filed rs.byPath) (hs : s.Readable) (has : Has (rs.below s).byPath tail) :
    ∃ head : Segment, head.Outlines s ∧ Has rs.byPath (head :: tail) := by
  have onto : ∀ (from_ gathered : List PathScope), (∀ scope ∈ from_, scope.Filed) →
      Has (from_.foldl (takeOver s) gathered) tail →
      Has gathered tail ∨ ∃ head : Segment, head.Outlines s ∧ Has from_ (head :: tail) := by
    intro from_
    induction from_ with
    | nil => exact fun _ _ found => .inl found
    | cons scope r ih =>
      intro gathered filed found
      rw [List.forall_mem_cons] at filed
      rcases ih _ filed.2 found with taken | ⟨head, outlined, t, ht, here⟩
      · rcases takeOver_cases hs filed.1 gathered with
          ⟨head, later, outlined, -, same, merged⟩ | ⟨-, left⟩
        · rw [merged] at taken
          rcases has_atPath (path_registerAll _) taken with rfl | earlier
          · exact .inr ⟨head, outlined, scope, List.mem_cons_self, same⟩
          · exact .inl earlier
        · exact .inl (left ▸ taken)
      · exact .inr ⟨head, outlined, t, List.mem_cons_of_mem _ ht, here⟩
  refine (onto _ [] h.each has).resolve_left ?_
  rintro ⟨t, ht, -⟩
  simp at ht

/-- A lookup below a segment is one above it, with the segment in front, if the
paths with its keys and without any are not both registered. -/
theorem findAt?_below (h : Filed rs.byPath) (hs : s.Readable) (readable : Readable tail)
    (apart : ∀ head other : Segment, head.Outlines s → other.Outlines s →
      Has rs.byPath (head :: tail) → Has rs.byPath (other :: tail) → other = head) :
    (rs.below s).findAt? σ (joined tail) required =
      (rs.findAt? σ (joined (s :: tail)) required).or
        (rs.findAt? σ (joined (s.withKeys 0 :: tail)) required) := by
  have absent {head : Segment} (outlined : head.Outlines s)
      (no : ¬ Has rs.byPath (head :: tail)) :
      rs.findAt? σ (joined (head :: tail)) required = none := by
    rw [findAt?_eq, h.entriesAt_of_not_has (readable.cons (outlined.readable hs)) no]
    rfl
  have found {head : Segment} (outlined : head.Outlines s) (yes : Has rs.byPath (head :: tail)) :
      (rs.below s).findAt? σ (joined tail) required =
        rs.findAt? σ (joined (head :: tail)) required := by
    rw [findAt?_eq, findAt?_eq, entriesAt_below_of_has h hs readable outlined yes
      fun other ho has => apart _ _ outlined ho yes has]
  have whole : s.Outlines s := .inl rfl
  have bare : (s.withKeys 0).Outlines s := .inr rfl
  by_cases keyed : Has rs.byPath (s :: tail)
  · rw [found whole keyed]
    by_cases plain : Has rs.byPath (s.withKeys 0 :: tail)
    · rw [apart _ _ whole bare keyed plain, Option.or_self]
    · rw [absent bare plain, Option.or_none]
  · rw [absent whole keyed, Option.none_or]
    by_cases plain : Has rs.byPath (s.withKeys 0 :: tail)
    · exact found bare plain
    · have silent : entriesAt (joined tail) (rs.below s).byPath = [] := by
        refine entriesAt_foldl_takeOver hs readable h.each fun head outlined => ?_
        rcases outlined with rfl | rfl
        · exact keyed
        · exact plain
      rw [absent bare plain, findAt?_eq, silent]
      rfl

/-- No two registered paths become one when segments that lead to a value are removed. -/
def Apart (scopes : List PathScope) (heads : List Segment) : Prop :=
  ∀ o ∈ Path.outlines heads, ∀ o' ∈ Path.outlines heads, ∀ tail ≠ [],
    Has scopes (o ++ tail) → Has scopes (o' ++ tail) → o = o'

theorem Apart.below {r : List Segment} (apart : Apart rs.byPath (s :: r)) (h : Filed rs.byPath)
    (hs : s.Readable) : Apart (rs.below s).byPath r := by
  intro o ho o' ho' tail ne has has'
  obtain ⟨head, outlined, above⟩ := has_below h hs has
  obtain ⟨head', outlined', above'⟩ := has_below h hs has'
  exact (List.cons.inj (apart _ (Path.mem_outlines_cons.2 ⟨head, o, outlined, ho, rfl⟩)
    _ (Path.mem_outlines_cons.2 ⟨head', o', outlined', ho', rfl⟩) tail ne above above')).2

theorem byType_foldl_below (heads : List Segment) (rs : Registrations) :
    (heads.foldl below rs).byType = rs.byType := by
  induction heads generalizing rs with
  | nil => rfl
  | cons s r ih => rw [List.foldl_cons, ih, byType_below]

theorem findAt?_foldl_below {heads : List Segment} (h : Filed rs.byPath)
    (hs : ∀ s ∈ heads, s.Readable) (readable : Readable tail) (apart : Apart rs.byPath heads) :
    (heads.foldl below rs).findAt? σ (joined tail) required =
      (Path.outlines heads).findSome? fun o => rs.findAt? σ (joined (o ++ tail)) required := by
  induction heads generalizing rs with
  | nil => simp [Path.outlines]
  | cons s r ih =>
    rw [List.forall_mem_cons] at hs
    rw [List.foldl_cons, ih (h.below hs.1) hs.2 (apart.below h hs.1)]
    refine Path.findSome?_outlines_cons fun o ho => ?_
    have later : Readable (o ++ tail) :=
      ⟨List.append_ne_nil_of_right_ne_nil _ readable.1, fun t ht =>
        (List.mem_append.1 ht).elim (readable_of_mem_outlines ho hs.2 t) (readable.2 t)⟩
    refine findAt?_below h hs.1 later fun head other outlined outlined' has has' => ?_
    have same := apart _ (Path.mem_outlines_cons.2 ⟨head, o, outlined, ho, rfl⟩)
      _ (Path.mem_outlines_cons.2 ⟨other, o, outlined', ho, rfl⟩) tail readable.1 has has'
    exact (List.cons.inj same).1.symm

end Registrations

end PropertyAccess
