import Mathlib.Data.List.Permutation
import PropertyAccess.Proofs.Conversion.Scopes

/-! Which registered path a lookup ends at, above some segments and below them. Above, the
variants of the whole path are tried in their order. Below, those of the last segment are,
and for each the paths that lead there through each segment with all of its keys or with
none. The two end at one path unless the path above leaves out some of the keys of a segment
before the last one, or another path through whole or bare segments ends in an earlier variant. -/

namespace PropertyAccess

namespace Registrations

open PropertyAccess.Path

inductive Made : Registrations → Prop
  | empty : Made empty
  | register {rs made : Registrations} (earlier : Made rs) {type : Option Ty}
      {path : Option String} {c : Converter} (registered : rs.register type path c = .ok made) :
      Made made

theorem Made.filed {rs : Registrations} (h : rs.Made) : Filed rs.byPath := by
  induction h with
  | empty => exact .nil
  | register _ registered ih => exact ih.register registered

/-- Something registered at the path of these segments serves a conversion to the type. -/
def servedAt (σ : Schema) (rs : Registrations) (required : Ty) (segments : List Segment) : Bool :=
  (rs.findAt? σ (joined segments) required).isSome

/-- The registered path at which a lookup for a path ends. -/
def above? (σ : Schema) (rs : Registrations) (required : Ty) (segments : List Segment) :
    Option (List Segment) :=
  (variants segments).find? (rs.servedAt σ required)

/-- The registered path at which a lookup for the last segment ends, below the others. -/
def below? (σ : Schema) (rs : Registrations) (required : Ty) (heads : List Segment)
    (last : Segment) : Option (List Segment) :=
  (variants [last]).findSome? fun tail =>
    ((outlines heads).find? fun o => rs.servedAt σ required (o ++ tail)).map (· ++ tail)

/-- The path above has whole or bare segments before the last one, and no other such path
ends in an earlier variant of the last segment. -/
def Foremost (σ : Schema) (rs : Registrations) (required : Ty) (heads : List Segment)
    (last : Segment) : Prop :=
  ∀ w, rs.above? σ required (heads ++ [last]) = some w →
    ∃ o ∈ outlines heads, ∃ before tail after, variants [last] = before ++ tail :: after ∧
      w = o ++ tail ∧
      ∀ earlier ∈ before, ∀ o' ∈ outlines heads, rs.servedAt σ required (o' ++ earlier) = false

variable {σ : Schema} {rs : Registrations} {required : Ty} {heads segments : List Segment}
  {last : Segment}

theorem findSome?_findAt? (σ : Schema) (rs : Registrations) (required : Ty)
    (l : List (List Segment)) :
    (l.findSome? fun v => rs.findAt? σ (joined v) required) =
      (l.find? (rs.servedAt σ required)).bind fun v => rs.findAt? σ (joined v) required := by
  induction l with
  | nil => rfl
  | cons v r ih =>
    rw [List.findSome?_cons, List.find?_cons, servedAt, ih]
    cases found : rs.findAt? σ (joined v) required <;> simp [found]

theorem findByPath?_eq (σ : Schema) (rs : Registrations) (required : Ty)
    (h : Readable segments) :
    rs.findByPath? σ (joined segments) required =
      (rs.above? σ required segments).bind fun v => rs.findAt? σ (joined v) required := by
  rw [above?, ← findSome?_findAt?, findByPath?, h.parse_joined, variants, List.findSome?_cons]
  split
  · rename_i found
    rw [found]
  · rename_i missing
    simp only [missing, stripped, List.findSome?_map]
    rfl

theorem readable_of_mem_variants {v : List Segment} (hl : last.Readable)
    (hv : v ∈ variants [last]) : Readable v := by
  obtain ⟨part, sublist, rfl⟩ := mem_variants_singleton.1 hv
  refine ⟨List.cons_ne_nil _ _, fun s hs => ?_⟩
  rw [List.mem_singleton.1 hs]
  exact ⟨hl.name, fun key hk => hl.keys key (sublist.subset hk)⟩

/-- A lookup for the last segment below the others is one at the path below. -/
theorem findByPath?_foldl_below (σ : Schema) (required : Ty) (h : Filed rs.byPath)
    (hs : ∀ s ∈ heads, s.Readable) (hl : last.Readable) (apart : Apart rs.byPath heads) :
    (heads.foldl below rs).findByPath? σ last.canonical required =
      (rs.below? σ required heads last).bind fun v => rs.findAt? σ (joined v) required := by
  have one : Readable [last] := ⟨List.cons_ne_nil _ _, by simpa using hl⟩
  have text : last.canonical = joined [last] := rfl
  rw [text, findByPath?_eq σ _ required one, above?, ← findSome?_findAt?, below?]
  have below_ : ∀ tail ∈ variants [last],
      (heads.foldl Registrations.below rs).findAt? σ (joined tail) required =
        (((outlines heads).find? fun o => rs.servedAt σ required (o ++ tail)).map (· ++ tail)).bind
          fun v => rs.findAt? σ (joined v) required := by
    intro tail ht
    rw [findAt?_foldl_below h hs (readable_of_mem_variants hl ht) apart]
    have mapped := findSome?_findAt? σ rs required ((outlines heads).map (· ++ tail))
    rw [List.findSome?_map, List.find?_map] at mapped
    exact mapped
  generalize variants [last] = tails at below_
  induction tails with
  | nil => rfl
  | cons tail r ih =>
    rw [List.forall_mem_cons] at below_
    rw [List.findSome?_cons, List.findSome?_cons, below_.1]
    cases found : (outlines heads).find? fun o => rs.servedAt σ required (o ++ tail) with
    | none => simpa using ih below_.2
    | some o =>
      have served : rs.servedAt σ required (o ++ tail) = true :=
        List.find?_some (p := fun o => rs.servedAt σ required (o ++ tail)) found
      obtain ⟨c, there⟩ := Option.isSome_iff_exists.1 served
      simp [there]

theorem has_of_servedAt (h : Filed rs.byPath) (readable : Readable segments)
    (served : rs.servedAt σ required segments) : Has rs.byPath segments := by
  refine Classical.byContradiction fun absent => ?_
  rw [servedAt, findAt?_eq, h.entriesAt_of_not_has readable absent] at served
  cases served

theorem isSome_below? {o tail : List Segment} (ho : o ∈ outlines heads)
    (ht : tail ∈ variants [last]) (served : rs.servedAt σ required (o ++ tail)) :
    ((rs.below? σ required heads last).bind fun v =>
      rs.findAt? σ (joined v) required).isSome := by
  cases found : rs.below? σ required heads last with
  | none =>
    rw [below?, List.findSome?_eq_none_iff] at found
    have unserved := Option.map_eq_none_iff.1 (found tail ht)
    exact absurd served (List.find?_eq_none.1 unserved o ho)
  | some w =>
    obtain ⟨tail', -, here⟩ := List.exists_of_findSome?_eq_some found
    obtain ⟨o', foundOutline, rfl⟩ := Option.map_eq_some_iff.1 here
    exact List.find?_some (p := fun o => rs.servedAt σ required (o ++ tail')) foundOutline

/-- The paths above and below are one exactly where the path above is foremost. -/
theorem below?_eq_above?_iff (σ : Schema) (required : Ty) (h : Filed rs.byPath)
    (hs : ∀ s ∈ heads, s.Readable) (hl : last.Readable) (apart : Apart rs.byPath heads) :
    rs.below? σ required heads last = rs.above? σ required (heads ++ [last]) ↔
      rs.Foremost σ required heads last := by
  have has {o tail : List Segment} (ho : o ∈ outlines heads) (ht : tail ∈ variants [last])
      (served : rs.servedAt σ required (o ++ tail)) : Has rs.byPath (o ++ tail) := by
    have readable := readable_of_mem_variants hl ht
    exact has_of_servedAt h ⟨List.append_ne_nil_of_right_ne_nil _ readable.1, fun t ht =>
      (List.mem_append.1 ht).elim (readable_of_mem_outlines ho hs t) (readable.2 t)⟩ served
  constructor
  · intro same w foundAbove
    rw [foundAbove, below?, List.findSome?_eq_some_iff] at same
    obtain ⟨before, tail, after, order, found, none_⟩ := same
    obtain ⟨o, foundOutline, rfl⟩ := Option.map_eq_some_iff.1 found
    refine ⟨o, List.mem_of_find?_eq_some foundOutline, before, tail, after, order, rfl, ?_⟩
    intro earlier he o' ho'
    have unserved := Option.map_eq_none_iff.1 (none_ earlier he)
    exact Bool.eq_false_iff.2 (List.find?_eq_none.1 unserved o' ho')
  · intro foremost
    cases foundAbove : rs.above? σ required (heads ++ [last]) with
    | none =>
      rw [above?, List.find?_eq_none] at foundAbove
      rw [below?, List.findSome?_eq_none_iff]
      intro tail ht
      rw [Option.map_eq_none_iff, List.find?_eq_none]
      exact fun o ho => foundAbove _
        (mem_variants_append.2 ⟨o, mem_variants_of_mem_outlines ho, tail, ht, rfl⟩)
    | some w =>
      obtain ⟨o, ho, before, tail, after, order, rfl, first⟩ := foremost w foundAbove
      have ht : tail ∈ variants [last] := order ▸ List.mem_append_right _ List.mem_cons_self
      have served : rs.servedAt σ required (o ++ tail) := List.find?_some foundAbove
      rw [below?, List.findSome?_eq_some_iff]
      refine ⟨before, tail, after, order, ?_, fun earlier he => ?_⟩
      · cases foundOutline : (outlines heads).find? fun o => rs.servedAt σ required (o ++ tail) with
        | none => exact absurd served (List.find?_eq_none.1 foundOutline o ho)
        | some o' =>
          -- Two paths that lead to the same rest would become one below.
          have only := apart o' (List.mem_of_find?_eq_some foundOutline) o ho tail
            (readable_of_mem_variants hl ht).1
            (has (List.mem_of_find?_eq_some foundOutline) ht
              (List.find?_some (p := fun o => rs.servedAt σ required (o ++ tail)) foundOutline))
            (has ho ht served)
          rw [only, Option.map_some]
      · rw [Option.map_eq_none_iff, List.find?_eq_none]
        exact fun o' ho' => Bool.eq_false_iff.1 (first earlier he o' ho')

/-- Both lookups are settled by the registered path at which they end. It is the same path
exactly where the one above is foremost, and then the same converter is found. -/
theorem find?_foldl_below (made : rs.Made) {text : String}
    (read : Path.parse text = .ok ⟨heads ++ [last]⟩) (apart : Apart rs.byPath heads)
    (required : Ty) :
    (heads.foldl below rs).findByPath? σ last.canonical required =
        ((rs.below? σ required heads last).bind fun v => rs.findAt? σ (joined v) required) ∧
      rs.findByPath? σ (canonical ⟨heads ++ [last]⟩) required =
        ((rs.above? σ required (heads ++ [last])).bind fun v =>
          rs.findAt? σ (joined v) required) ∧
      (rs.below? σ required heads last = rs.above? σ required (heads ++ [last]) ↔
        rs.Foremost σ required heads last) ∧
      (rs.Foremost σ required heads last →
        (heads.foldl below rs).find? σ required (some last.canonical) =
          rs.find? σ required (some (canonical ⟨heads ++ [last]⟩))) := by
  have readable := Path.readable_of_parse read
  have hs : ∀ s ∈ heads, s.Readable := fun s hm => readable.2 s (List.mem_append_left _ hm)
  have hl : last.Readable := readable.2 last (List.mem_append_right _ List.mem_cons_self)
  have underneath := findByPath?_foldl_below σ required made.filed hs hl apart
  have whole : rs.findByPath? σ (canonical ⟨heads ++ [last]⟩) required =
      (rs.above? σ required (heads ++ [last])).bind fun v => rs.findAt? σ (joined v) required :=
    findByPath?_eq σ rs required readable
  have same := below?_eq_above?_iff σ required made.filed hs hl apart
  refine ⟨underneath, whole, same, fun foremost => ?_⟩
  rw [find?, find?, Option.bind_some, Option.bind_some, underneath, whole, same.2 foremost,
    findByType?, findByType?, byType_foldl_below]

/-! A price for the rows of one key, and prices that differ for the whole and for an element. -/

def cents : Converter := .ofText "cents" fun _ text _ => throw (.invalid text)

def euros : Converter := .ofText "euros" fun _ text _ => throw (.invalid text)

def rowPrices : Registrations :=
  ⟨[], [⟨⟨[⟨"rows", ["a"]⟩, ⟨"price", []⟩]⟩, [(none, cents)]⟩]⟩

def elementPrices : Registrations :=
  ⟨[], [⟨⟨[⟨"rows", []⟩, ⟨"price", ["1"]⟩]⟩, [(none, cents)]⟩,
    ⟨⟨[⟨"rows", ["0"]⟩, ⟨"price", []⟩]⟩, [(none, euros)]⟩]⟩

theorem rowPrices_made : rowPrices.Made := by
  have registered : empty.register none (some "rows[a].price") cents = .ok rowPrices := by cbv
  exact Made.empty.register registered

theorem elementPrices_made : elementPrices.Made := by
  have first : empty.register none (some "rows.price[1]") cents =
      .ok ⟨[], [⟨⟨[⟨"rows", []⟩, ⟨"price", ["1"]⟩]⟩, [(none, cents)]⟩]⟩ := by cbv
  have second : (⟨[], [⟨⟨[⟨"rows", []⟩, ⟨"price", ["1"]⟩]⟩, [(none, cents)]⟩]⟩ :
      Registrations).register none (some "rows[0].price") euros = .ok elementPrices := by cbv
  exact (Made.empty.register first).register second

theorem find?_foldl_below_rows :
    rowPrices.Made ∧ Path.parse "rows[a].price[0]" = .ok ⟨[⟨"rows", ["a"]⟩] ++ [⟨"price", ["0"]⟩]⟩ ∧
      Apart rowPrices.byPath [⟨"rows", ["a"]⟩] ∧
      rowPrices.Foremost .empty .any [⟨"rows", ["a"]⟩] ⟨"price", ["0"]⟩ ∧
      ([⟨"rows", ["a"]⟩].foldl below rowPrices).find? .empty .any
          (some (Segment.canonical ⟨"price", ["0"]⟩)) =
        rowPrices.find? .empty .any (some "rows[a].price[0]") ∧
      rowPrices.find? .empty .any (some "rows[a].price[0]") = some cents := by
  have read : Path.parse "rows[a].price[0]" =
      .ok ⟨[⟨"rows", ["a"]⟩] ++ [⟨"price", ["0"]⟩]⟩ := by cbv
  have apart : Apart rowPrices.byPath [⟨"rows", ["a"]⟩] := by
    simp [Apart, outlines, Has, rowPrices, Segment.withKeys]
  have foremost : rowPrices.Foremost .empty .any [⟨"rows", ["a"]⟩] ⟨"price", ["0"]⟩ := by
    intro w found
    have whole : rowPrices.above? .empty .any ([⟨"rows", ["a"]⟩] ++ [⟨"price", ["0"]⟩]) =
        some ([⟨"rows", ["a"]⟩] ++ [⟨"price", []⟩]) := by cbv
    obtain rfl := Option.some.inj (found.symm.trans whole)
    refine ⟨[⟨"rows", ["a"]⟩], by simp [outlines], [[⟨"price", ["0"]⟩]], [⟨"price", []⟩], [],
      rfl, rfl, ?_⟩
    intro earlier he o ho
    obtain rfl := List.mem_singleton.1 he
    rcases (by simpa [outlines] using ho : o = _ ∨ o = _) with rfl | rfl
    · cbv
    · cbv
  have spelled : canonical ⟨[⟨"rows", ["a"]⟩] ++ [⟨"price", ["0"]⟩]⟩ = "rows[a].price[0]" := by
    decide +kernel
  refine ⟨rowPrices_made, read, apart, foremost, ?_, by cbv⟩
  rw [← spelled]
  exact (find?_foldl_below rowPrices_made read apart .any).2.2.2 foremost

/-- With one of the two keys left out, and with an element that is found before the whole, a
lookup below ends otherwise than one above. -/
theorem find?_below_differs :
    (rowPrices.Made ∧ rowPrices.byType = [] ∧
      Path.parse "rows[a][0].price" = .ok ⟨[⟨"rows", ["a", "0"]⟩] ++ [⟨"price", []⟩]⟩ ∧
      Apart rowPrices.byPath [⟨"rows", ["a", "0"]⟩] ∧
      rowPrices.find? .empty .any (some "rows[a][0].price") = some cents ∧
      (rowPrices.below ⟨"rows", ["a", "0"]⟩).find? .empty .any (some "price") = none) ∧
    (elementPrices.Made ∧ elementPrices.byType = [] ∧
      Path.parse "rows[0].price[1][2]" =
        .ok ⟨[⟨"rows", ["0"]⟩] ++ [⟨"price", ["1", "2"]⟩]⟩ ∧
      Apart elementPrices.byPath [⟨"rows", ["0"]⟩] ∧
      elementPrices.find? .empty .any (some "rows[0].price[1][2]") = some cents ∧
      (elementPrices.below ⟨"rows", ["0"]⟩).find? .empty .any (some "price[1][2]") =
        some euros ∧
      cents ≠ euros) := by
  refine ⟨⟨rowPrices_made, rfl, by cbv, ?_, by cbv, by cbv⟩,
    ⟨elementPrices_made, rfl, by cbv, ?_, by cbv, by cbv, fun same => ?_⟩⟩
  · simp [Apart, outlines, Has, rowPrices, Segment.withKeys]
  · simp +contextual [Apart, outlines, Has, elementPrices, Segment.withKeys]
    constructor <;> rintro tail - rfl <;> simp
  · have names : cents.name = euros.name := congrArg Converter.name same
    revert names
    decide

end Registrations

end PropertyAccess
