import PropertyAccess.Proofs.Conversion.Bare
import PropertyAccess.Proofs.Conversion.Ready
import PropertyAccess.Proofs.Conversion.Written

/-! Values that need no conversion. Such a value is an instance of the type, and so is what
its lists, sets and maps hold at any depth; an array has the very component type that is
declared. Where no registered converter has to do with it, a conversion looks through all of
it and comes back with the value itself, and the heap is what it was: nothing is copied on
the way. By induction on the type, since the elements that come back are the same ones and
so the container that holds them is left in place. -/

namespace PropertyAccess

/-- Something is known of the type, and it is not nullable. -/
def Ty.Sole (t : Ty) : Prop := t.isUnknown = false ∧ t.unwrapped = t

theorem Ty.not_sole_nullable (t : Ty) : ¬(Ty.nullable t).Sole := by
  rintro ⟨-, same⟩
  have inside : t = .nullable t := same
  cases inside

namespace Heap

/-- An instance of the type that needs no conversion, and neither does what it holds. What is
held is the same as itself, which leaves out only what is no number. -/
def Settled (σ : Schema) (h : Heap) : Ty → Value → Prop
  | .nullable t, v => t.Sole ∧ (v = .null ∨ h.Settled σ t v)
  | .array e, v => σ.accepts (.array e) v = true ∧ ∀ f l, v = .array f l → f = e
  | .list s e, v =>
    σ.accepts (.list s e) v = true ∧
      ∀ x ∈ (h.elements? v).getD [], x.same x = true ∧ h.Settled σ e x
  | .set s e, v =>
    σ.accepts (.set s e) v = true ∧
      ∀ x ∈ (h.elements? v).getD [], x.same x = true ∧ h.Settled σ e x
  | .map s k e, v =>
    σ.accepts (.map s k e) v = true ∧
      ∀ x ∈ h.pairs v, (x.1.same x.1 = true ∧ h.Settled σ k x.1) ∧
        x.2.same x.2 = true ∧ h.Settled σ e x.2
  | t, v => σ.accepts t v = true

variable {σ : Schema} {h : Heap} {t : Ty} {v : Value}

theorem Settled.accepts (hv : h.Settled σ t v) : σ.accepts t v = true := by
  induction t with
  | nullable t ih =>
    obtain ⟨-, rfl | hv⟩ := hv
    · rfl
    · have inside := ih hv
      cases v with
      | null => rfl
      | _ => exact inside
  | array e | list s e | set s e | map s k e => exact hv.1
  | _ => exact hv

theorem Settled.single (hv : h.Settled σ t v) : t.isUnknown = true ∨ t.unwrapped.Sole := by
  cases t with
  | any | param | self => exact .inl rfl
  | nullable t => exact .inr hv.1
  | _ => exact .inr ⟨rfl, rfl⟩

theorem settled_null (sole : t.Sole) (reference : t.isPrimitive = false) :
    h.Settled σ t .null := by
  have fits := σ.accepts_null reference
  cases t with
  | nullable t => exact absurd sole t.not_sole_nullable
  | array e => exact ⟨fits, by simp⟩
  | list s e | set s e => exact ⟨fits, by simp [elements?]⟩
  | map s k e => exact ⟨fits, by simp [pairs]⟩
  | _ => exact fits

end Heap

theorem sameItems_self {l : List Value} (h : ∀ v ∈ l, v.same v = true) :
    sameItems l l = true := by
  induction l with
  | nil => rfl
  | cons v r ih =>
    rw [List.forall_mem_cons] at h
    rw [sameItems, h.1, ih h.2, Bool.and_self]

theorem sameEntries_self {l : List (Value × Value)}
    (h : ∀ e ∈ l, e.1.same e.1 = true ∧ e.2.same e.2 = true) : sameEntries l l = true := by
  induction l with
  | nil => rfl
  | cons e r ih =>
    rw [List.forall_mem_cons] at h
    rw [sameEntries, h.1.1, h.1.2, ih h.2]
    rfl

namespace Strategies

variable {σ : Schema} {S : Strategies} {t e k : Ty} {path : Option String} {h : Heap} {v : Value}
  {contents : ContentConversions}

/-- A map with all entries of these types is left as it is. -/
def passesOver (σ : Schema) (S : Strategies) (k e : Ty) (path : Option String) : Bool :=
  k.isUnknown && e.isUnknown && !S.registered.hasElementConverter σ none path

/-- No registered converter has to do with what the value holds, where it is converted to the
type. -/
def Unserved (σ : Schema) (S : Strategies) (h : Heap) : Ty → Option String → Value → Prop
  | .nullable t, path, v => S.Unserved σ h t path v
  | .array e, path, _ => S.registered.hasElementConverter σ (some e) path = false
  | .list _ e, path, v | .set _ e, path, v =>
    ∀ (i : Nat) (x : Value), ((h.elements? v).getD [])[i]? = some x →
      S.custom? σ e (keyedPath path (toString i)) = none ∧
        S.Unserved σ h e (keyedPath path (toString i)) x
  | .map _ k e, path, v =>
    ∀ x ∈ h.pairs v, ∀ text, (path.isSome = true → σ.valueText? h x.1 = some text) →
      (S.custom? σ k (keyedPath path text) = none ∧
        S.Unserved σ h k (keyedPath path text) x.1) ∧
      S.custom? σ e (keyedPath path text) = none ∧
        S.Unserved σ h e (keyedPath path text) x.2
  | _, _, _ => True

/-- The keys that are met where the value is converted to the type have texts, if there is a path
to put them into. -/
def Legible (σ : Schema) (S : Strategies) (h : Heap) : Ty → Option String → Value → Prop
  | .nullable t, path, v => S.Legible σ h t path v
  | .list _ e, path, v | .set _ e, path, v =>
    ∀ (i : Nat) (x : Value), ((h.elements? v).getD [])[i]? = some x →
      S.Legible σ h e (keyedPath path (toString i)) x
  | .map _ k e, path, v =>
    S.passesOver σ k e path = false → ∀ x ∈ h.pairs v,
      ∃ text, (path.isSome = true → σ.valueText? h x.1 = some text) ∧
        S.Legible σ h k (keyedPath path text) x.1 ∧ S.Legible σ h e (keyedPath path text) x.2
  | _, _, _ => True

theorem Bare.unserved (hS : S.Bare) (h : Heap) (t : Ty) (path : Option String) (v : Value) :
    S.Unserved σ h t path v := by
  induction t generalizing path v with
  | nullable t ih => exact ih path v
  | array e =>
    rw [Unserved, hS.registered]
    cases path <;> rfl
  | list s e ih | set s e ih => exact fun i x _ => ⟨hS.custom?_eq_none _ _, ih _ _⟩
  | map s k e ihk ihe =>
    exact fun x _ _ _ => ⟨⟨hS.custom?_eq_none _ _, ihk _ _⟩, hS.custom?_eq_none _ _, ihe _ _⟩
  | _ => trivial

/-- The conversions of the contents leave what the value holds as it is, or one of them has no
end, which is so just where `L` does not hold. -/
structure Kept (σ : Schema) (S : Strategies) (contents : ContentConversions) (h : Heap) (t : Ty)
    (path : Option String) (v : Value) (L : Prop) : Prop where
  array : ∀ e, t.unwrapped = .array e →
    S.registered.hasElementConverter σ (some e) path = false ∧ ∀ f l, v = .array f l → f = e
  elements : t.isCollection = true → (∀ x ∈ (h.elements? v).getD [], x.same x = true) ∧
    (convertItems contents.element path 0 ((h.elements? v).getD [])).Returns h L
      ((h.elements? v).getD [])
  pairs : ∀ s k e, t.unwrapped = .map s k e → S.passesOver σ k e path = false →
    (∀ x ∈ h.pairs v, x.1.same x.1 = true ∧ x.2.same x.2 = true) ∧
      (convertEntries σ contents path (h.pairs v)).Returns h L (h.pairs v)
  null : v.isNull = true → L
  single : t.isCollection = false → t.isMap = false → L
  anyElement : t.isCollection = true → ∀ e, t.element? = some e → e.isUnknown = true → L
  anyEntry : ∀ s k e, t.unwrapped = .map s k e → S.passesOver σ k e path = true → L

theorem exists_of_accepts_array (fits : σ.accepts (.array e) v = true) (there : v.isNull = false)
    (own : ∀ f l, v = .array f l → f = e) : ∃ l, v = .array e l := by
  cases v with
  | null => cases there
  | array f l => exact ⟨l, by rw [own f l rfl]⟩
  | _ => cases fits

section Rules

variable {L : Prop} (kept : S.Kept σ contents h t path v L) (fits : σ.accepts t v = true)

theorem accepts_unwrapped (fits : σ.accepts t v = true) (null : v.isNull = false) :
    σ.accepts t.unwrapped v = true := by
  cases t with
  | nullable t =>
    cases v with
    | null => cases null
    | _ => exact fits
  | _ => exact fits

include fits in
theorem on_ruleScalar_of_accepts (null : v.isNull = false) (standard : Bool) :
    ∃ passed, (ruleScalar σ t false v standard).on h = (.ok (.open v passed), h) := by
  have inside := accepts_unwrapped fits null
  have unwritten : ¬(t = .text && v.isPrimitive) = true := by
    intro written
    simp only [Bool.and_eq_true, decide_eq_true_eq] at written
    obtain ⟨rfl, primitive⟩ := written
    cases v with
    | text s => cases primitive
    | null => cases primitive
    | _ => cases fits
  unfold ruleScalar
  rw [if_neg unwritten]
  split
  · rw [if_pos fits]
    exact ⟨_, rfl⟩
  · rename_i n
    split
    · rename_i k unwrapped
      rw [unwrapped] at inside
      have kind : n.kind = k := eq_of_beq inside
      have same : n.convert k = .ok n := kind ▸ n.convert_self
      simp only [same]
      exact ⟨_, rfl⟩
    · exact ⟨_, rfl⟩
  · exact ⟨_, rfl⟩

theorem array_of_accepts {elem : Ty} {l : Loc} (sole : t.Sole)
    (fits : σ.accepts t (.array elem l) = true) : ∃ e, t = .array e := by
  cases t with
  | array e => exact ⟨e, rfl⟩
  | nullable t => exact absurd sole t.not_sole_nullable
  | any | param | self => cases sole.1
  | _ => cases fits

include fits in
theorem list_or_set_of_isCollection (null : v.isNull = false) (collection : t.isCollection = true) :
    (∃ s l, v = .list s l) ∨ ∃ s l, v = .set s l := by
  have inside := accepts_unwrapped fits null
  rw [Ty.isCollection] at collection
  split at collection
  · rename_i unwrapped
    rw [unwrapped] at inside
    cases v with
    | list s l => exact .inl ⟨s, l, rfl⟩
    | null => cases null
    | _ => cases inside
  · rename_i unwrapped
    rw [unwrapped] at inside
    cases v with
    | set s l => exact .inr ⟨s, l, rfl⟩
    | null => cases null
    | _ => cases inside
  · cases collection

include fits in
theorem map_of_isMap (null : v.isNull = false) (map : t.isMap = true) : ∃ s l, v = .map s l := by
  have inside := accepts_unwrapped fits null
  rw [Ty.isMap] at map
  split at map
  · rename_i unwrapped
    rw [unwrapped] at inside
    cases v with
    | map s l => exact ⟨s, l, rfl⟩
    | null => cases null
    | _ => cases inside
  · cases map

include kept fits in
theorem returns_toCollection (null : v.isNull = false) (other : ∀ s l, v ≠ .map s l) :
    (S.toCollection σ t contents path v).Returns h L v := by
  have other : t.isMap = false := Bool.eq_false_iff.2 fun map => by
    obtain ⟨s, l, same⟩ := map_of_isMap fits null map
    exact other s l same
  unfold toCollection
  split
  · rename_i none_
    refine .pure (kept.single ?_ other)
    rw [Ty.isCollection]
    rw [Ty.element?] at none_
    split at none_ <;> simp_all
  · rename_i elem some_
    dsimp only
    split
    · rename_i quick
      refine .pure ?_
      cases collection : t.isCollection with
      | false => exact kept.single collection other
      | true =>
        simp only [collection, Bool.not_true, Bool.false_or, Bool.and_eq_true] at quick
        exact kept.anyElement collection elem some_ quick.1.1
    · rename_i slow
      have collection : t.isCollection = true := by
        simp only [Bool.or_eq_true, not_or, Bool.not_eq_true'] at slow
        simpa using slow.1
      obtain ⟨same, converted⟩ := kept.elements collection
      have items : (Run.lookup fun g => (g.elements? v).getD [] :
          Run ConvertError (List Value)).on h = (.ok ((h.elements? v).getD []), h) := rfl
      refine .of_ok items (converted.andThen fun _ => ?_)
      rw [fits, sameItems_self same]
      rfl

include kept fits in
theorem returns_toMap {s : TableShape} {l : Loc} (map : v = .map s l) :
    (S.toMap σ t contents path v).Returns h L v := by
  subst map
  have other : t.isCollection = false := Bool.eq_false_iff.2 fun collection => by
    rcases list_or_set_of_isCollection fits rfl collection with ⟨_, _, same⟩ | ⟨_, _, same⟩ <;>
      cases same
  unfold toMap
  split
  · rename_i shape key value s' l' unwrapped given
    cases given
    dsimp only
    split
    · rename_i quick
      rw [fits, Bool.and_true] at quick
      exact .pure (kept.anyEntry _ _ _ unwrapped quick)
    · rename_i slow
      have met : S.passesOver σ key value path = false := by
        rw [fits, Bool.and_true] at slow
        exact Bool.eq_false_iff.2 slow
      obtain ⟨same, converted⟩ := kept.pairs _ _ _ unwrapped met
      have entries : (Run.lookup (·.entries l) : Run ConvertError (List (Value × Value))).on h =
          (.ok (h.entries l), h) := rfl
      have unchanged : sameEntries (h.entries l) (h.entries l) = true := sameEntries_self same
      refine .of_ok entries (converted.andThen fun _ => ?_)
      change (if σ.accepts t (.map s l) && sameEntries (h.entries l) (h.entries l)
        then pure (.map s l) else _ : Run ConvertError Value).on h = _
      rw [fits, unchanged]
      rfl
  · rename_i single
    refine .pure (kept.single other ?_)
    rw [Ty.isMap]
    split
    · rename_i unwrapped
      exact absurd rfl (single _ _ _ _ _ unwrapped)
    · rfl

include kept fits in
theorem returns_ruleContainer (null : v.isNull = false) :
    ∃ standard, (S.ruleContainer σ t contents path v).Returns h L (v, standard) := by
  unfold ruleContainer
  split
  · exact ⟨true, (returns_toCollection kept fits null nofun).andThen fun _ => rfl⟩
  · exact ⟨true, (returns_toCollection kept fits null nofun).andThen fun _ => rfl⟩
  · exact ⟨true, (returns_toMap kept fits rfl).andThen fun _ => rfl⟩
  · rename_i list set map
    refine ⟨false, .pure (kept.single ?_ ?_)⟩ <;> refine Bool.eq_false_iff.2 fun container => ?_
    · rcases list_or_set_of_isCollection fits null container with ⟨s, l, same⟩ | ⟨s, l, same⟩
      · exact list s l same
      · exact set s l same
    · obtain ⟨s, l, same⟩ := map_of_isMap fits null container
      exact map s l same

def Ruled.IsOf (v : Value) : Ruled → Prop
  | .done w | .open w _ => w = v

include kept fits in
theorem returns_rules (sole : t.isUnknown = true ∨ t.unwrapped.Sole) :
    ∃ r : Ruled, r.IsOf v ∧ (S.rules σ t contents path false v).Returns h L r := by
  unfold rules
  by_cases null : v.isNull = true
  · rw [if_pos null]
    exact ⟨.open v false, rfl, .pure (kept.null null)⟩
  rw [if_neg null]
  by_cases unknown : t.isUnknown = true
  · rw [if_pos unknown]
    refine ⟨.done v, rfl, .pure ?_⟩
    cases t with
    | any | param | self => exact kept.single rfl rfl
    | _ => cases unknown
  rw [if_neg unknown]
  have known : v.isNull = false := Bool.eq_false_iff.2 null
  have sole := sole.resolve_left unknown
  have inside := accepts_unwrapped fits known
  split
  · rename_i e array
    rw [array] at inside
    obtain ⟨skipped, own⟩ := kept.array e array
    obtain ⟨l, own⟩ := exists_of_accepts_array inside known own
    have alone : L := kept.single (by rw [Ty.isCollection, array]) (by rw [Ty.isMap, array])
    subst own
    refine ⟨.done (.array e l), rfl, ?_⟩
    simp only [splitIf, toArray, skipped, pure_bind, decide_true, Bool.not_false, Bool.and_self,
      if_true]
    exact .pure alone
  · rename_i other
    obtain ⟨standard, contained⟩ := returns_ruleContainer kept fits known
    have whole : soleElement v standard = pure (v, standard) := by
      refine soleElement_of_lasting ⟨known, fun elem l same => ?_⟩ standard
      subst same
      obtain ⟨e, array⟩ := array_of_accepts sole inside
      exact other e array
    obtain ⟨passed, open_⟩ := on_ruleScalar_of_accepts (h := h) fits known standard
    refine ⟨.open v passed, rfl, contained.andThen fun _ => ?_⟩
    simp only [whole, pure_bind]
    exact open_

end Rules

theorem returns_step (service : S.service = none) (own : S.custom? σ t path = none) {L : Prop}
    (kept : S.Kept σ contents h t path v L) (fits : σ.accepts t v = true)
    (sole : t.isUnknown = true ∨ t.unwrapped.Sole) :
    (S.step σ t contents path v).Returns h L v := by
  obtain ⟨r, same, ruled⟩ := returns_rules kept fits sole
  rw [step_of_service_eq_none service, withoutService, applied_of_accepts own fits, pure_bind,
    Option.isSome_none]
  refine ruled.andThen fun _ => ?_
  cases r with
  | done w =>
    obtain rfl : w = v := same
    rfl
  | «open» w standard =>
    obtain rfl : w = v := same
    dsimp only
    rw [checked, if_pos fits]
    rfl

theorem Kept.of_scalar {L : Prop} (hL : L) (array : t.isArray = false)
    (collection : t.isCollection = false) (map : t.isMap = false) :
    S.Kept σ contents h t path v L where
  array e same := by
    rw [Ty.isArray, same] at array
    cases array
  elements there := by
    rw [collection] at there
    cases there
  pairs s k e same := by
    rw [Ty.isMap, same] at map
    cases map
  null _ := hL
  single _ _ := hL
  anyElement _ _ _ _ := hL
  anyEntry _ _ _ _ _ := hL

theorem Kept.of_array {L : Prop} (hL : L)
    (unserved : S.registered.hasElementConverter σ (some e) path = false)
    (own : ∀ f l, v = .array f l → f = e) : S.Kept σ contents h (.array e) path v L where
  array f same := by
    obtain rfl : e = f := by simpa [Ty.unwrapped] using same
    exact ⟨unserved, own⟩
  elements there := by cases there
  pairs _ _ _ same := by cases same
  null _ := hL
  single _ _ := hL
  anyElement there := by cases there
  anyEntry _ _ _ same := by cases same

theorem Kept.of_items {L : Prop} (collection : t.isCollection = true) (elem : t.element? = some e)
    (same : ∀ x ∈ (h.elements? v).getD [], x.same x = true)
    (returns : (convertItems contents.element path 0 ((h.elements? v).getD [])).Returns h L
      ((h.elements? v).getD []))
    (null : v.isNull = true → L) (unknown : e.isUnknown = true → L) :
    S.Kept σ contents h t path v L where
  array f array := by simp [Ty.isCollection, array] at collection
  elements _ := ⟨same, returns⟩
  pairs s k f map := by simp [Ty.isCollection, map] at collection
  null := null
  single other := by simp [other] at collection
  anyElement _ f some_ := Option.some.inj (elem.symm.trans some_) ▸ unknown
  anyEntry s k f map := by simp [Ty.isCollection, map] at collection

theorem Kept.of_pairs {L : Prop} {s : TableShape}
    (same : ∀ x ∈ h.pairs v, x.1.same x.1 = true ∧ x.2.same x.2 = true)
    (returns : S.passesOver σ k e path = false →
      (convertEntries σ contents path (h.pairs v)).Returns h L (h.pairs v))
    (null : v.isNull = true → L) (passes : S.passesOver σ k e path = true → L) :
    S.Kept σ contents h (.map s k e) path v L where
  array _ array := by cases array
  elements there := by cases there
  pairs _ _ _ map met := by
    cases map
    exact ⟨same, returns met⟩
  null := null
  single _ other := by cases other
  anyElement there := by cases there
  anyEntry _ _ _ map passed := by
    cases map
    exact passes passed

theorem Kept.nullable {L : Prop} (sole : t.Sole) (kept : S.Kept σ contents h t path v L) :
    S.Kept σ contents h (.nullable t) path v L := by
  have same : (Ty.nullable t).unwrapped = t.unwrapped := sole.2.symm
  exact {
    array := same ▸ kept.array
    elements := fun there => kept.elements (by rwa [Ty.isCollection, ← same])
    pairs := same ▸ kept.pairs
    null := kept.null
    single := fun collection map =>
      kept.single (by rwa [Ty.isCollection, ← same]) (by rwa [Ty.isMap, ← same])
    anyElement := fun there f some_ =>
      kept.anyElement (by rwa [Ty.isCollection, ← same]) f (by rwa [Ty.element?, ← same])
    anyEntry := same ▸ kept.anyEntry }

theorem legible_of_isUnknown (unknown : t.isUnknown = true) : S.Legible σ h t path v := by
  cases t with
  | any | param | self => trivial
  | _ => cases unknown

/-- By induction on the type: what the elements come back as is what they are. -/
theorem kept_of_settled (service : S.service = none) (unserved : S.Unserved σ h t path v)
    (hv : h.Settled σ t v) :
    S.Kept σ (S.contents σ t) h t path v (S.Legible σ h t path v) := by
  induction t generalizing path v with
  | nullable t ih =>
    obtain ⟨sole, rfl | inside⟩ := hv
    · refine .nullable sole ?_
      -- A missing value is none of a primitive type, so the hypothesis is of no use for it there.
      by_cases reference : t.isPrimitive = true
      · cases t <;> first | exact .of_scalar trivial rfl rfl rfl | cases reference
      · exact ih unserved (Heap.settled_null sole (Bool.eq_false_iff.2 reference))
    · exact .nullable sole (ih unserved inside)
  | array e => exact .of_array trivial unserved hv.2
  | list s e ih | set s e ih =>
    refine .of_items rfl rfl (fun x there => (hv.2 x there).1)
      (returns_convertItems 0 fun i x there => ?_) (fun null i x there => ?_)
      fun unknown i x _ => legible_of_isUnknown unknown
    · obtain ⟨own, unserved⟩ := unserved i x there
      obtain ⟨-, settled⟩ := hv.2 x (List.mem_of_getElem? there)
      rw [Nat.zero_add]
      exact returns_step service own (ih unserved settled) settled.accepts settled.single
    · cases v with
      | null => cases there
      | _ => cases null
  | map s k e ihk ihe =>
    refine .of_pairs (fun x there => ⟨(hv.2 x there).1.1, (hv.2 x there).2.1⟩) (fun met => ?_)
      (fun null _ x there => ?_) fun passed met => ?_
    · refine (returns_convertEntries (K := fun x here => S.Legible σ h k here x.1)
        (E := fun x here => S.Legible σ h e here x.2) fun x there text written => ?_).congr
        ⟨fun all _ => all, fun all => all met⟩
      obtain ⟨⟨-, settledKey⟩, -, settledValue⟩ := hv.2 x there
      obtain ⟨⟨ownKey, unservedKey⟩, ownValue, unservedValue⟩ := unserved x there text written
      exact ⟨returns_step service ownKey (ihk unservedKey settledKey) settledKey.accepts
          settledKey.single,
        returns_step service ownValue (ihe unservedValue settledValue) settledValue.accepts
          settledValue.single⟩
    · cases v with
      | null => cases there
      | _ => cases null
    · rw [passed] at met
      cases met
  | _ => exact .of_scalar trivial rfl rfl rfl

theorem on_convert_of_settled (service : S.service = none) (own : S.custom? σ t path = none)
    (unserved : S.Unserved σ h t path v) (legible : S.Legible σ h t path v)
    (hv : h.Settled σ t v) : (S.convert σ t path v).on h = (.ok v, h) :=
  (returns_step service own (kept_of_settled service unserved hv) hv.accepts hv.single).1 legible

/-- With the builtin converters alone, what is settled is converted to itself if each key that is
met has a text where there is a path, and otherwise the conversion has no end. -/
theorem Bare.returns_settled (hS : S.Bare) (path : Option String) (hv : h.Settled σ t v) :
    (S.convert σ t path v).Returns h (S.Legible σ h t path v) v :=
  returns_step hS.service (hS.custom?_eq_none t path)
    (kept_of_settled hS.service (hS.unserved h t path v) hv) hv.accepts hv.single

def ledger : Heap :=
  ⟨#[.items [.number (.int .i32 4 (by decide))],
    .items [.array (.number (.int .i32)) 0, .null], .entries [(.text "may", .list .vector 1)]]⟩

theorem Bare.returns_settled_ledger :
    (⟨.empty, .standard, none⟩ : Strategies).Bare ∧
      ledger.Settled .empty (.map .any .text (.list .any (.array (.number (.int .i32)))))
        (.map .linked 2) ∧
      ((⟨.empty, .standard, none⟩ : Strategies).convert .empty
        (.map .any .text (.list .any (.array (.number (.int .i32))))) (some "page")
        (.map .linked 2)).on ledger = (.ok (.map .linked 2), ledger) := by
  have bare : (⟨.empty, .standard, none⟩ : Strategies).Bare := ⟨rfl, rfl⟩
  have settled : ledger.Settled .empty
      (.map .any .text (.list .any (.array (.number (.int .i32))))) (.map .linked 2) := by
    simp [Heap.Settled, Heap.pairs, Heap.entries, Heap.elements?, Heap.items, Heap.cell?, ledger,
      Schema.accepts, TableShape.admits, ListShape.admits, Ty.isPrimitive, Value.same,
      Schema.assignable_self]
  refine ⟨bare, settled, (bare.returns_settled (some "page") settled).1 fun _ x there => ?_⟩
  obtain rfl : x = (.text "may", .list .vector 1) := List.mem_singleton.1 there
  exact ⟨"may", fun _ => rfl, trivial, fun _ _ _ => trivial⟩

def spiral : Heap :=
  ⟨#[.items [.list .vector 0], .entries [(.list .vector 0, .number (.int .i32 2 (by decide)))]]⟩

/-- The key has no text to be put into a path. -/
theorem spiral_endless :
    (⟨.empty, .standard, none⟩ : Strategies).Bare ∧
      spiral.Settled .empty (.map .any .any (.number (.int .i32))) (.map .linked 1) ∧
      ((⟨.empty, .standard, none⟩ : Strategies).convert .empty
        (.map .any .any (.number (.int .i32))) (some "m") (.map .linked 1)).on spiral =
          (.error .endless, spiral) := by
  have bare : (⟨.empty, .standard, none⟩ : Strategies).Bare := ⟨rfl, rfl⟩
  have settled : spiral.Settled .empty (.map .any .any (.number (.int .i32))) (.map .linked 1) := by
    simp [Heap.Settled, Heap.pairs, Heap.entries, Heap.cell?, spiral, Schema.accepts,
      TableShape.admits, Value.same, Number.same, Number.kind]
  have unwritten : Schema.empty.valueText? spiral (.list .vector 0) = none := rfl
  refine ⟨bare, settled, ?_⟩
  refine (returns_step bare.service (bare.custom?_eq_none _ _) (kept_of_settled bare.service
    (bare.unserved spiral _ (some "m") _) settled) settled.accepts settled.single).2 fun legible => ?_
  obtain ⟨text, written, -⟩ := legible rfl _ List.mem_cons_self
  cases unwritten.symm.trans (written rfl)

end Strategies

end PropertyAccess
