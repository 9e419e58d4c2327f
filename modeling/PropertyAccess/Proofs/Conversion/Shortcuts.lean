import PropertyAccess.Proofs.Conversion.ElementPaths
import PropertyAccess.Proofs.Conversion.Settled
import PropertyAccess.Proofs.Conversion.Spelled

/-! Arrays and collections whose elements are not looked at. The test that lets a conversion
leave an array as it is goes by the texts of the registered paths and by the very element
type, while a conversion of an element looks for its path with keys left out and for types
that take its type. Where converters are registered in the open, at the path or one key
below it and for the very type, the test misses none of them; and where the elements need no
conversion of their own either, what is left as it is has the elements that converting them
one by one gives. -/

namespace PropertyAccess

open PropertyAccess.Path

namespace Registrations

variable {σ : Schema} {rs : Registrations} {elem required : Ty} {text : String}
  {segments : List Segment}

/-- Converters that serve elements of the type are registered where they are looked for: by
type for no other type that takes theirs, and by path at no path with keys left out. -/
structure Overt (σ : Schema) (rs : Registrations) (elem : Ty) (path : Option Path) : Prop where
  types : elem.isUnknown = false →
    ∀ r ∈ rs.byType, σ.assignable r.1 elem = true → r.1 = elem.erased
  paths : ∀ p ∈ path, ∀ v ∈ variants p.segments, v ≠ p.segments →
    rs.servedAt σ elem v = false ∧ ∀ key, rs.servedAt σ elem (inside key v) = false

def hasScopeBelow (σ : Schema) (rs : Registrations) (required : Ty) (text : String) : Bool :=
  rs.byPath.any fun s => addresses s.path.canonical text && (s.find? σ required).isSome

theorem find?_of_isUnknown (scope : PathScope) (unknown : required.isUnknown = true) :
    scope.find? σ required = scope.find? σ .any := by
  have same : ∀ type, serves σ type required = serves σ type .any := by
    intro type
    cases type with
    | none => rfl
    | some t =>
      rw [serves, serves, if_pos unknown]
      rfl
  simp only [PathScope.find?, same]

theorem servedAt_eq_false (quiet : rs.hasScopeBelow σ required text = false)
    (there : addresses (joined segments) text = true) :
    rs.servedAt σ required segments = false := by
  rw [servedAt, findAt?]
  cases found : rs.byPath.find? (·.path.canonical = joined segments) with
  | none => rfl
  | some scope =>
    have member := List.mem_of_find?_eq_some found
    have spelled : scope.path.canonical = joined segments :=
      of_decide_eq_true
        (List.find?_some (p := fun s : PathScope => s.path.canonical = joined segments) found)
    have unserved := List.any_eq_false.1 quiet scope member
    rw [spelled, there, Bool.true_and] at unserved
    exact Bool.eq_false_iff.2 unserved

theorem findByPath?_element_eq_none {p : Path} (read : Readable p.segments)
    (overt : Overt σ rs elem (some p)) (quiet : rs.hasScopeBelow σ elem p.canonical = false)
    (index : Nat) :
    rs.findByPath? σ (p.canonical ++ "[" ++ toString index ++ "]") elem = none := by
  have plain := Segment.needsQuotes_eq_false (Segment.plain_of_index index)
  have closed : ']' ∉ (toString index).toList :=
    fun there => (Segment.plain_of_index index _ there).2.1 rfl
  have unserved : rs.above? σ elem (inside (toString index) p.segments) = none := by
    rw [above?, List.find?_eq_none]
    intro v there
    rw [Bool.not_eq_true]
    obtain ⟨u, variant, rfl | rfl⟩ := mem_variants_inside read.1 there
    · by_cases whole : v = p.segments
      · exact servedAt_eq_false quiet (whole ▸ addresses_self _)
      · exact (overt.paths p rfl v variant whole).1
    · by_cases whole : u = p.segments
      · exact servedAt_eq_false quiet (whole ▸ addresses_inside read.1 closed)
      · exact (overt.paths p rfl u variant whole).2 _
  rw [Path.canonical, ← joined_inside read.1 plain,
    findByPath?_eq σ rs elem (readable_inside read plain), unserved, Option.bind_none]

theorem findByType?_eq_none (overt : elem.isUnknown = false →
      ∀ r ∈ rs.byType, σ.assignable r.1 elem = true → r.1 = elem.erased)
    (quiet : elem.isUnknown = false → (rs.byType.any fun r => r.1 = elem.erased) = false) :
    rs.findByType? σ elem = none := by
  unfold findByType?
  split
  · rfl
  · rename_i known
    have known : elem.isUnknown = false := Bool.eq_false_iff.2 known
    have absent : ∀ r ∈ rs.byType, r.1 ≠ elem.erased :=
      fun r there => by simpa using List.any_eq_false.1 (quiet known) r there
    have exact_ : rs.byType.lookup elem.erased = none :=
      List.lookup_eq_none_iff.2 fun r there => bne_iff_ne.2 (Ne.symm (absent r there))
    have none_ : rs.byType.find? (fun r => σ.assignable r.1 elem) = none :=
      List.find?_eq_none.2 fun r there taken => absent r there (overt known r there taken)
    rw [exact_, none_]
    rfl

/-- Whether the test asks for the elements of an array or of a collection with elements of an
unknown type, it misses no converter that is registered in the open. -/
theorem find?_element_eq_none {path : Option Path} (read : ∀ p ∈ path, Readable p.segments)
    (overt : Overt σ rs elem path)
    (quiet : rs.hasElementConverter σ (some elem) (path.map Path.canonical) = false ∨
      elem.isUnknown = true ∧ rs.hasElementConverter σ none (path.map Path.canonical) = false)
    (index : Nat) :
    rs.find? σ elem (keyedPath (path.map Path.canonical) (toString index)) = none := by
  have byType : rs.findByType? σ elem = none := by
    refine findByType?_eq_none overt.types fun known => ?_
    rcases quiet with quiet | ⟨unknown, -⟩
    · exact (Bool.or_eq_false_iff.1 quiet).2
    · rw [unknown] at known
      cases known
  cases path with
  | none => rw [Option.map_none, keyedPath, Option.map_none, find?, Option.bind_none, byType]
  | some p =>
    have below : rs.hasScopeBelow σ elem p.canonical = false := by
      rcases quiet with quiet | ⟨unknown, quiet⟩
      · exact (Bool.or_eq_false_iff.1 quiet).1
      · simp only [hasScopeBelow, find?_of_isUnknown _ unknown]
        exact (Bool.or_eq_false_iff.1 quiet).1
    rw [Option.map_some, keyedPath, Option.map_some, find?, Option.bind_some,
      findByPath?_element_eq_none (read p rfl) overt below index, byType]

end Registrations

theorem Heap.items_alloc (h : Heap) (xs : List Value) :
    (h.alloc (.items xs)).2.items (h.alloc (.items xs)).1 = xs := by
  rw [items, cell?_alloc]

namespace Strategies

variable {σ : Schema} {S : Strategies} {required elem : Ty} {path : Option String} {h : Heap}
  {given v : Value} {contents : ContentConversions}

def SameEach (xs ys : List Value) : Prop := List.Forall₂ (fun x y => x = y ∨ x.same y = true) xs ys

theorem sameEach_self (xs : List Value) : SameEach xs xs :=
  List.forall₂_same.2 fun _ _ => .inl rfl

theorem sameEach_of_sameItems {items xs : List Value} (length : xs.length = items.length)
    (same : sameItems items xs = true) : SameEach xs items := by
  induction items generalizing xs with
  | nil =>
    rw [List.length_eq_zero_iff.1 length]
    exact .nil
  | cons v r ih =>
    cases xs with
    | nil => cases length
    | cons x xs =>
      simp only [sameItems, Bool.and_eq_true] at same
      exact .cons (.inr same.1) (ih (Nat.succ.inj length) same.2)

/-- What a container becomes whose elements are converted to these. It is the given one, if
they are equal to those that it had; else it is one of the same kind that holds them. -/
def Rebuilt (h : Heap) (given : Value) (xs : List Value) (w : Value) (h' : Heap) : Prop :=
  match given, w with
  | .array e _, .array f m => f = e ∧ h'.items m = xs
  | .list _ _, .list _ m => w = given ∧ SameEach xs (h.items m) ∨ h'.items m = xs
  | .set _ _, .set s m => w = given ∧ SameEach xs (h.items m) ∨ h'.items m = SetItems.ofList s xs
  | _, _ => False

/-- Converting the whole is converting the elements one after the other. It fails as the first
element does that fails, and apart from what the elements leave there is at most one new
container. -/
def Itemwise (whole : Run ConvertError Value) (each : Run ConvertError (List Value)) (h : Heap)
    (given : Value) : Prop :=
  match each.on h with
  | (.error e, h') => whole.on h = (.error e, h')
  | (.ok xs, h') => ∃ w h'', whole.on h = (.ok w, h'') ∧ (h'' = h' ∨ ∃ c, h'' = (h'.alloc c).2) ∧
    Rebuilt h given xs w h''

theorem Itemwise.of_error {whole : Run ConvertError Value}
    {each : Run ConvertError (List Value)} {e : ConvertError} {h' : Heap}
    (failed : each.on h = (.error e, h')) (same : whole.on h = (.error e, h')) :
    Itemwise whole each h given := by
  unfold Itemwise
  rwa [failed]

theorem Itemwise.of_ok {whole : Run ConvertError Value} {each : Run ConvertError (List Value)}
    {xs : List Value} {h' h'' : Heap} {w : Value} (done : each.on h = (.ok xs, h'))
    (made : whole.on h = (.ok w, h'')) (heap : h'' = h' ∨ ∃ c, h'' = (h'.alloc c).2)
    (rebuilt : Rebuilt h given xs w h'') : Itemwise whole each h given := by
  unfold Itemwise
  rw [done]
  exact ⟨w, h'', made, heap, rebuilt⟩

theorem length_of_convertItems {element : Conversion} {items xs : List Value} {index : Nat}
    {h' : Heap} (done : (convertItems element path index items).on h = (.ok xs, h')) :
    xs.length = items.length := by
  induction items generalizing xs index h h' with
  | nil =>
    cases done
    rfl
  | cons v r ih =>
    rw [convertItems] at done
    rcases first : (element (keyedPath path (toString index)) v).on h with ⟨e | w, h₁⟩
    · rw [Run.on_bind_of_error first] at done
      cases done
    rw [Run.on_bind_of_ok first] at done
    rcases rest : (convertItems element path (index + 1) r).on h₁ with ⟨e | ws, h₂⟩
    · rw [Run.on_bind_of_error rest] at done
      cases done
    rw [Run.on_bind_of_ok rest] at done
    cases done
    exact congrArg Nat.succ (ih rest)

theorem convert_of_accepts (service : S.service = none) (own : S.custom? σ required path = none)
    (fits : σ.accepts required v = true) :
    S.convert σ required path v = (do
      match ← S.rules σ required (S.contents σ required) path false v with
      | .done w => return w
      | .open w standard => S.checked σ required path v none none w standard) := by
  rw [convert, step_of_service_eq_none service, withoutService, applied_of_accepts own fits,
    pure_bind]
  rfl

theorem convert_array_eq (service : S.service = none)
    (own : S.custom? σ (.array elem) path = none) (l : Loc) :
    S.convert σ (.array elem) path (.array elem l) =
      S.toArray σ elem ⟨S.convert σ elem, S.convert σ elem⟩ path (.array elem l) := by
  have fits : σ.accepts (.array elem) (.array elem l) = true := σ.accepts_array_self rfl l
  rw [convert_of_accepts service own fits]
  have ruled : S.rules σ (.array elem) (S.contents σ (.array elem)) path false (.array elem l) =
      (S.toArray σ elem (S.contents σ (.array elem)) path (.array elem l) >>= fun w =>
        pure (.done w)) := rfl
  rw [ruled, bind_assoc]
  simp only [pure_bind]
  exact bind_pure _

/-- The elements of an array, where they are looked at and where they are not. -/
theorem itemwise_array (service : S.service = none) (own : S.custom? σ (.array elem) path = none)
    (l : Loc)
    (kept : S.registered.hasElementConverter σ (some elem) path = false →
      ∀ (i : Nat) (x : Value), (h.items l)[i]? = some x →
        (S.convert σ elem (keyedPath path (toString i)) x).on h = (.ok x, h)) :
    Itemwise (S.convert σ (.array elem) path (.array elem l))
      (convertItems (S.convert σ elem) path 0 (h.items l)) h (.array elem l) := by
  rw [convert_array_eq service own, toArray]
  cases quiet : S.registered.hasElementConverter σ (some elem) path with
  | false =>
    have each : (convertItems (S.convert σ elem) path 0 (h.items l)).on h =
        (.ok (h.items l), h) := by
      refine on_convertItems_of_kept 0 fun i x there => ?_
      rw [Nat.zero_add]
      exact kept quiet i x there
    rw [if_pos (by simp)]
    exact .of_ok each rfl (.inl rfl) ⟨rfl, rfl⟩
  | true =>
    have items : (Run.lookup (·.items l) : Run ConvertError (List Value)).on h =
        (.ok (h.items l), h) := rfl
    rw [if_neg (by simp)]
    rcases each : (convertItems (S.convert σ elem) path 0 (h.items l)).on h with ⟨e | xs, h'⟩
    · refine .of_error each ?_
      rw [Run.on_bind_of_ok items, newConverted, Run.on_bind_of_error each]
    · have made : ((Run.lookup (·.items l) : Run ConvertError (List Value)) >>=
            newConverted elem ⟨S.convert σ elem, S.convert σ elem⟩ path).on h =
          (.ok (.array elem (h'.alloc (.items xs)).1), (h'.alloc (.items xs)).2) := by
        rw [Run.on_bind_of_ok items, newConverted, Run.on_bind_of_ok each]
        rfl
      exact .of_ok each made (.inr ⟨_, rfl⟩) ⟨rfl, h'.items_alloc xs⟩

def Row (v : Value) : Prop := (∃ s l, v = .list s l) ∨ ∃ s l, v = .set s l

theorem unwrapped_of_row (collection : required.isCollection = true)
    (fits : σ.accepts required given = true) :
    (∀ s l, given = .list s l → ∃ t e, required.unwrapped = .list t e ∧ t.admits s = true) ∧
      ∀ s l, given = .set s l → ∃ t e, required.unwrapped = .set t e ∧ t.admits s = true := by
  have inside (null : given.isNull = false) := accepts_unwrapped fits null
  unfold Ty.isCollection at collection
  split at collection
  · rename_i t e unwrapped
    rw [unwrapped] at inside ⊢
    refine ⟨?_, ?_⟩
    · rintro s l rfl
      exact ⟨t, e, rfl, inside rfl⟩
    · rintro s l rfl
      cases inside rfl
  · rename_i t e unwrapped
    rw [unwrapped] at inside ⊢
    refine ⟨?_, ?_⟩
    · rintro s l rfl
      cases inside rfl
    · rintro s l rfl
      exact ⟨t, e, rfl, inside rfl⟩
  · cases collection

theorem on_newCollection (collection : required.isCollection = true)
    (fits : σ.accepts required given = true) (row : Row given) (xs : List Value) (h h' : Heap) :
    ∃ w c, (newCollection required given xs).on h' = (.ok w, (h'.alloc c).2) ∧
      σ.accepts required w = true ∧ Row w ∧ Rebuilt h given xs w (h'.alloc c).2 := by
  have kind := unwrapped_of_row collection fits
  rcases row with ⟨s, l, rfl⟩ | ⟨s, l, rfl⟩
  · obtain ⟨t, e, unwrapped, -⟩ := kind.1 s l rfl
    have taken (r : ListShape) (there : t.admits r = true) (m : Loc) :
        σ.accepts required (.list r m) = true := σ.accepts_of_unwrapped (unwrapped ▸ there)
    have rebuilt (r : ListShape) : Rebuilt h (.list s l) xs (.list r (h'.alloc (.items xs)).1)
        (h'.alloc (.items xs)).2 := .inr (h'.items_alloc xs)
    unfold newCollection
    rw [unwrapped]
    cases t with
    | any => exact ⟨_, .items xs, rfl, taken _ rfl _, .inl ⟨_, _, rfl⟩, rebuilt _⟩
    | vector | linked => exact ⟨_, .items xs, rfl, taken _ rfl _, .inl ⟨_, _, rfl⟩, rebuilt _⟩
  · obtain ⟨t, e, unwrapped, -⟩ := kind.2 s l rfl
    have taken (r : TableShape) (there : t.admits r = true) (m : Loc) :
        σ.accepts required (.set r m) = true := σ.accepts_of_unwrapped (unwrapped ▸ there)
    have rebuilt (r : TableShape) : Rebuilt h (.set s l) xs
        (.set r (h'.alloc (.items (SetItems.ofList r xs))).1)
        (h'.alloc (.items (SetItems.ofList r xs))).2 := .inr (h'.items_alloc _)
    unfold newCollection
    rw [unwrapped]
    cases t with
    | any => exact ⟨_, _, rfl, taken _ rfl _, .inr ⟨_, _, rfl⟩, rebuilt _⟩
    | hashed | linked | sorted =>
      exact ⟨_, _, rfl, taken _ rfl _, .inr ⟨_, _, rfl⟩, rebuilt _⟩

theorem soleElement_of_row (row : Row v) (standard : Bool) :
    soleElement v standard = pure (v, standard) := by
  rcases row with ⟨s, l, rfl⟩ | ⟨s, l, rfl⟩ <;> rfl

theorem ruleScalar_of_row (row : Row v) (standard : Bool) :
    ruleScalar σ required false v standard = pure (.open v standard) := by
  have unwritten : (required = .text && v.isPrimitive) = false := by
    rcases row with ⟨s, l, rfl⟩ | ⟨s, l, rfl⟩ <;> exact Bool.and_false _
  unfold ruleScalar
  rw [unwritten]
  rcases row with ⟨s, l, rfl⟩ | ⟨s, l, rfl⟩ <;> rfl

theorem rules_of_row (collection : required.isCollection = true) (row : Row v) :
    S.rules σ required contents path false v =
      (S.toCollection σ required contents path v >>= fun w =>
        soleElement w true >>= fun r => ruleScalar σ required false r.1 r.2) := by
  have known : required.isUnknown = false := by
    cases required <;> first | rfl | cases collection
  have null : v.isNull = false := by
    rcases row with ⟨s, l, rfl⟩ | ⟨s, l, rfl⟩ <;> rfl
  have container : S.ruleContainer σ required contents path v =
      (S.toCollection σ required contents path v >>= fun w => pure (w, true)) := by
    rcases row with ⟨s, l, rfl⟩ | ⟨s, l, rfl⟩ <;> rfl
  unfold rules
  rw [if_neg (Bool.eq_false_iff.1 null), if_neg (Bool.eq_false_iff.1 known)]
  split
  · rename_i e unwrapped
    rw [Ty.isCollection, unwrapped] at collection
    cases collection
  · rw [container, bind_assoc]
    simp only [pure_bind]

theorem on_convert_of_row (service : S.service = none) (own : S.custom? σ required path = none)
    (collection : required.isCollection = true) (fits : σ.accepts required given = true)
    (row : Row given) {h' : Heap} :
    (∀ e, (S.toCollection σ required (S.contents σ required) path given).on h = (.error e, h') →
      (S.convert σ required path given).on h = (.error e, h')) ∧
    ∀ w, (S.toCollection σ required (S.contents σ required) path given).on h = (.ok w, h') →
      σ.accepts required w = true → Row w →
        (S.convert σ required path given).on h = (.ok w, h') := by
  rw [convert_of_accepts service own fits, rules_of_row collection row, bind_assoc]
  refine ⟨fun e failed => Run.on_bind_of_error failed _, fun w done fits' row' => ?_⟩
  rw [Run.on_bind_of_ok done, soleElement_of_row row', pure_bind, ruleScalar_of_row row', pure_bind]
  dsimp only
  rw [checked, if_pos fits']
  rfl

theorem element_contents (collection : required.isCollection = true)
    (element : required.element? = some elem) :
    (S.contents σ required).element = S.convert σ elem := by
  cases required with
  | list s e | set s e =>
    obtain rfl : e = elem := Option.some.inj element
    rfl
  | nullable t =>
    cases t with
    | list s e | set s e =>
      obtain rfl : e = elem := Option.some.inj element
      rfl
    | _ => cases collection
  | _ => cases collection

theorem toCollection_of_quiet (element : required.element? = some elem)
    (unknown : elem.isUnknown = true) (fits : σ.accepts required given = true)
    (quiet : S.registered.hasElementConverter σ none path = false) :
    S.toCollection σ required contents path given = pure given := by
  unfold toCollection
  rw [element]
  simp [unknown, fits, quiet]

theorem toCollection_of_hasElementConverter (collection : required.isCollection = true)
    (element : required.element? = some elem) (fits : σ.accepts required given = true)
    (quiet : S.registered.hasElementConverter σ none path = true) :
    S.toCollection σ required (S.contents σ required) path given =
      (Run.lookup fun g => (g.elements? given).getD []) >>= fun items =>
        convertItems (S.convert σ elem) path 0 items >>= fun converted =>
          if sameItems items converted then pure given
          else newCollection required given converted := by
  unfold toCollection
  rw [element]
  simp [collection, fits, quiet, element_contents collection element]

/-- The elements of a collection whose element type is unknown. -/
theorem itemwise_collection (service : S.service = none) (own : S.custom? σ required path = none)
    (collection : required.isCollection = true) (element : required.element? = some elem)
    (unknown : elem.isUnknown = true) (fits : σ.accepts required given = true) (row : Row given)
    (kept : S.registered.hasElementConverter σ none path = false →
      ∀ (i : Nat) (x : Value), ((h.elements? given).getD [])[i]? = some x →
        (S.convert σ elem (keyedPath path (toString i)) x).on h = (.ok x, h)) :
    Itemwise (S.convert σ required path given)
      (convertItems (S.convert σ elem) path 0 ((h.elements? given).getD [])) h given := by
  have convert_ (h' : Heap) := @on_convert_of_row σ S required path h given service own collection
    fits row h'
  have same_ (xs : List Value) (same : SameEach xs ((h.elements? given).getD [])) (h' : Heap) :
      Rebuilt h given xs given h' := by
    rcases row with ⟨s, l, rfl⟩ | ⟨s, l, rfl⟩ <;> exact .inl ⟨rfl, same⟩
  cases quiet : S.registered.hasElementConverter σ none path with
  | false =>
    have each : (convertItems (S.convert σ elem) path 0 ((h.elements? given).getD [])).on h =
        (.ok ((h.elements? given).getD []), h) := by
      refine on_convertItems_of_kept 0 fun i x there => ?_
      rw [Nat.zero_add]
      exact kept quiet i x there
    have left : (S.toCollection σ required (S.contents σ required) path given).on h =
        (.ok given, h) := by
      rw [toCollection_of_quiet element unknown fits quiet]
      rfl
    exact .of_ok each ((convert_ h).2 given left fits row) (.inl rfl) (same_ _ (sameEach_self _) h)
  | true =>
    have items : (Run.lookup fun g => (g.elements? given).getD [] :
        Run ConvertError (List Value)).on h = (.ok ((h.elements? given).getD []), h) := rfl
    have unfolded := toCollection_of_hasElementConverter collection element fits quiet
    rcases each : (convertItems (S.convert σ elem) path 0 ((h.elements? given).getD [])).on h with
      ⟨e | xs, h'⟩
    · refine .of_error each ((convert_ h').1 e ?_)
      rw [unfolded, Run.on_bind_of_ok items, Run.on_bind_of_error each]
    · have rest : (S.toCollection σ required (S.contents σ required) path given).on h =
          (if sameItems ((h.elements? given).getD []) xs then pure given
            else newCollection required given xs : Run ConvertError Value).on h' := by
        rw [unfolded, Run.on_bind_of_ok items, Run.on_bind_of_ok each]
      cases same : sameItems ((h.elements? given).getD []) xs with
      | true =>
        rw [same] at rest
        exact .of_ok each ((convert_ h').2 given rest fits row) (.inl rfl)
          (same_ xs (sameEach_of_sameItems (length_of_convertItems each) same) h')
      | false =>
        rw [same] at rest
        obtain ⟨w, c, made, fits', row', rebuilt⟩ := on_newCollection collection fits row xs h h'
        exact .of_ok each ((convert_ _).2 w (rest.trans made) fits' row') (.inr ⟨c, rfl⟩) rebuilt

/-- The elements that are not looked at are the ones that converting them one by one gives.
Where the test finds no converter for the elements of an array, these are settled and nothing
that they hold is a registered converter's; of the elements of a collection with an unknown
element type nothing is asked. In both the converters of elements are registered in the
open. -/
theorem itemwise_of_convert (service : S.service = none) {path : Option Path}
    (read : ∀ p ∈ path, Readable p.segments) (h : Heap) :
    (∀ (elem : Ty) (l : Loc), S.custom? σ (.array elem) (path.map Path.canonical) = none →
      (S.registered.hasElementConverter σ (some elem) (path.map Path.canonical) = false →
        S.registered.Overt σ elem path ∧
          ∀ (i : Nat) (x : Value), (h.items l)[i]? = some x → h.Settled σ elem x ∧
            S.Unserved σ h elem (keyedPath (path.map Path.canonical) (toString i)) x ∧
            S.Legible σ h elem (keyedPath (path.map Path.canonical) (toString i)) x) →
      Itemwise (S.convert σ (.array elem) (path.map Path.canonical) (.array elem l))
        (convertItems (S.convert σ elem) (path.map Path.canonical) 0 (h.items l)) h
        (.array elem l)) ∧
    ∀ (required elem : Ty) (given : Value), required.isCollection = true →
      required.element? = some elem → elem.isUnknown = true →
      σ.accepts required given = true → Row given →
      S.custom? σ required (path.map Path.canonical) = none →
      (S.registered.hasElementConverter σ none (path.map Path.canonical) = false →
        S.registered.Overt σ elem path) →
      Itemwise (S.convert σ required (path.map Path.canonical) given)
        (convertItems (S.convert σ elem) (path.map Path.canonical) 0
          ((h.elements? given).getD [])) h given := by
  constructor
  · intro elem l own conform
    refine itemwise_array service own l fun quiet i x there => ?_
    obtain ⟨overt, items⟩ := conform quiet
    obtain ⟨settled, unserved, legible⟩ := items i x there
    have none_ := Registrations.find?_element_eq_none read overt (.inl quiet) i
    exact on_convert_of_settled service none_ unserved legible settled
  · intro required elem given collection element unknown fits row own open_
    refine itemwise_collection service own collection element unknown fits row
      fun quiet i x there => ?_
    have none_ :=
      Registrations.find?_element_eq_none read (open_ quiet) (.inr ⟨unknown, quiet⟩) i
    have settled : h.Settled σ elem x := by
      cases elem with
      | any | param | self => exact σ.accepts_of_isUnknown unknown x
      | _ => cases unknown
    have unserved : S.Unserved σ h elem (keyedPath (path.map Path.canonical) (toString i)) x ∧
        S.Legible σ h elem (keyedPath (path.map Path.canonical) (toString i)) x := by
      cases elem with
      | any | param | self => exact ⟨trivial, trivial⟩
      | _ => cases unknown
    exact on_convert_of_settled service none_ unserved.1 unserved.2 settled

/-- Arrays of lists: of a list of numbers, and of a list that holds a text. The last array is
one of texts. -/
def sheets : Heap :=
  ⟨#[.items [.number (.int .i32 7 (by decide))], .items [.list .vector 0],
    .items [.text "7"], .items [.list .vector 2], .items [.list .vector 2], .items [.text "7"]]⟩

def prices : Registrations := ⟨[], [⟨⟨[⟨"price", []⟩]⟩, [(none, Registrations.cents)]⟩]⟩

def numbers : Ty := .list .any (.number (.int .i32))

theorem itemwise_of_convert_sheets :
    (⟨prices, .standard, none⟩ : Strategies).service = none ∧
      (∀ p ∈ some (⟨[⟨"rows", []⟩]⟩ : Path), Readable p.segments) ∧
      Itemwise ((⟨prices, .standard, none⟩ : Strategies).convert .empty (.array numbers)
          (some "rows") (.array numbers 1))
        (convertItems ((⟨prices, .standard, none⟩ : Strategies).convert .empty numbers)
          (some "rows") 0 [.list .vector 0]) sheets (.array numbers 1) := by
  have read : ∀ p ∈ some (⟨[⟨"rows", []⟩]⟩ : Path), Readable p.segments := by
    intro p there
    obtain rfl := Option.some.inj there
    have parsed : Path.parse "rows" = .ok ⟨[⟨"rows", []⟩]⟩ := by cbv
    exact Path.readable_of_parse parsed
  have spelled : Path.canonical ⟨[⟨"rows", []⟩]⟩ = "rows" := by decide +kernel
  have whole : prices.find? .empty (.array numbers) (some "rows") = none :=
    Option.isNone_iff_eq_none.1 (by decide +kernel)
  have inner : prices.find? .empty (.number (.int .i32)) (some "rows[0][0]") = none :=
    Option.isNone_iff_eq_none.1 (by decide +kernel)
  have itemwise := (itemwise_of_convert (S := ⟨prices, .standard, none⟩) (σ := .empty) rfl read
    sheets).1 numbers 1
  rw [Option.map_some, spelled] at itemwise
  refine ⟨rfl, read, itemwise whole fun _ => ⟨⟨fun _ => by simp [prices], ?_⟩, ?_⟩⟩
  · rintro p there v variant other
    obtain rfl := Option.some.inj there
    exact absurd (by simpa [variants, droppings, keyCount] using variant) other
  · intro i x there
    cases i with
    | succ i => cases there
    | zero =>
      obtain rfl : Value.list .vector 0 = x := Option.some.inj there
      refine ⟨?_, fun j y held => ?_, fun j y held => trivial⟩
      · simp [Heap.Settled, Heap.elements?, Heap.items, Heap.cell?, sheets, numbers,
          Schema.accepts, ListShape.admits, Value.same]
        decide
      · cases j with
        | succ j => cases held
        | zero => exact ⟨inner, trivial⟩

def texts : Registrations := ⟨[(.text, Registrations.cents)], []⟩

def rowTexts : Registrations :=
  ⟨[], [⟨⟨[⟨"rows", []⟩]⟩, [(some .text, Registrations.cents)]⟩]⟩

/-- Arrays that are left as they are, with an element that is not where it is converted for
itself: a list of numbers that holds a text, a list of texts that have a converter, and a text
whose converter is registered at the path with a key left out. -/
theorem array_left_unconverted :
    (Registrations.empty.find? .empty (.array numbers) (some "rows") = none ∧
      Schema.accepts .empty numbers (.list .vector 2) = true ∧
      sheets.items 3 = [.list .vector 2] ∧ sheets.items 2 = [.text "7"] ∧
      ((⟨.empty, .standard, none⟩ : Strategies).convert .empty (.array numbers) (some "rows")
        (.array numbers 3)).on sheets = (.ok (.array numbers 3), sheets) ∧
      ∃ h', ((⟨.empty, .standard, none⟩ : Strategies).convert .empty numbers (some "rows[0]")
          (.list .vector 2)).on sheets = (.ok (.list .vector 6), h') ∧
        h'.items 6 = [.number (.int .i32 7 (by decide))]) ∧
    (texts.find? .empty (.array (.list .any .text)) (some "rows") = none ∧
      sheets.items 4 = [.list .vector 2] ∧
      ((⟨texts, .standard, none⟩ : Strategies).convert .empty (.array (.list .any .text))
        (some "rows") (.array (.list .any .text) 4)).on sheets =
          (.ok (.array (.list .any .text) 4), sheets) ∧
      ((⟨texts, .standard, none⟩ : Strategies).convert .empty (.list .any .text)
        (some "rows[0]") (.list .vector 2)).on sheets =
          (.error (.conversion ⟨.text "7", .text, some "rows[0][0]",
            .converterFailed "cents" "7"⟩), sheets)) ∧
    (rowTexts.find? .empty (.array .text) (some "rows[0]") = none ∧
      sheets.items 5 = [.text "7"] ∧
      ((⟨rowTexts, .standard, none⟩ : Strategies).convert .empty (.array .text)
        (some "rows[0]") (.array .text 5)).on sheets = (.ok (.array .text 5), sheets) ∧
      ((⟨rowTexts, .standard, none⟩ : Strategies).convert .empty .text
        (some "rows[0][0]") (.text "7")).on sheets =
          (.error (.conversion ⟨.text "7", .text, some "rows[0][0]",
            .converterFailed "cents" "7"⟩), sheets)) := by
  refine ⟨⟨Registrations.find?_empty _ _ _, by decide, by decide, by decide, by decide +kernel,
    ⟨sheets.cells.push (.items [.number (.int .i32 7 (by decide))])⟩, by decide +kernel,
      by decide⟩, ⟨Option.isNone_iff_eq_none.1 (by decide +kernel), by decide, by decide +kernel,
      by decide +kernel⟩,
    Option.isNone_iff_eq_none.1 (by decide +kernel), by decide, by decide +kernel,
    by decide +kernel⟩

end Strategies

end PropertyAccess
