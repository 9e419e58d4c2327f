import PropertyAccess.Proofs.Conversion.Arrays
import PropertyAccess.Proofs.Conversion.Stays
import PropertyAccess.Proofs.Graph.Additions

/-! Conversions with the builtin converters alone. An instance that is neither null nor an
array is converted to one that is neither, and an array of the declared component type is
left alone. A text becomes the same scalar every time, or else something new. -/

namespace PropertyAccess

theorem Registrations.find?_empty (σ : Schema) (required : Ty) (path : Option String) :
    empty.find? σ required path = none := by
  have byPath : (path.bind fun text => empty.findByPath? σ text required) = none := by
    cases path with
    | none => rfl
    | some text =>
      change empty.findByPath? σ text required = none
      unfold findByPath?
      cases parsed : Path.parse text <;> simp [findAt?, empty]
  rw [find?, byPath]
  simp [findByType?, empty]

namespace Strategies

variable {σ : Schema} {S : Strategies} {required elem : Ty} {path : Option String} {l : Loc}
  {contents : ContentConversions} {v : Value}

/-- Neither a converter nor a service was supplied. -/
structure Bare (S : Strategies) : Prop where
  registered : S.registered = .empty
  service : S.service = none

theorem Bare.custom?_eq_none (hS : S.Bare) (required : Ty) (path : Option String) :
    S.custom? σ required path = none := by
  rw [custom?, hS.registered, Registrations.find?_empty]

theorem Bare.convert_array (hS : S.Bare)
    (own : required.isUnknown = true ∨ required.unwrapped = .array elem) :
    S.convert σ required path (.array elem l) = pure (.array elem l) := by
  have no_element : S.registered.hasElementConverter σ (some elem) path = false := by
    rw [hS.registered]
    cases path <;> rfl
  have fits : σ.accepts required (.array elem l) = true :=
    own.elim (σ.accepts_of_isUnknown · _) (σ.accepts_array_self · l)
  rw [convert, step_of_service_eq_none hS.service, withoutService,
    applied_of_accepts (hS.custom?_eq_none _ _) fits, pure_bind]
  by_cases unknown : required.isUnknown = true
  · simp [rules, Value.isNull, unknown]
  · have unwrapped := own.resolve_left unknown
    simp [rules, Value.isNull, unknown, unwrapped, splitIf, toArray, no_element]

theorem Bare.convert_eq (hS : S.Bare) (v : Value) :
    S.convert σ required path v =
      S.withoutService σ required (S.contents σ required) path v none :=
  step_of_service_eq_none hS.service _ v

section Rules

theorem gives_newCollection (given : Value) (items : List Value) :
    (newCollection required given items).Gives fun w => w.Lasting ∧ w.loc?.isSome := by
  unfold newCollection
  split <;> exact .after fun _ => .pure ⟨⟨rfl, fun _ _ other => by cases other⟩, rfl⟩

theorem gives_toCollection (hv : v.Lasting ∧ v.loc?.isSome) :
    (S.toCollection σ required contents path v).Gives fun w => w.Lasting ∧ w.loc?.isSome := by
  unfold toCollection
  split
  · exact .pure hv
  · dsimp only
    refine .ite (fun _ => .pure hv) fun _ => .after fun items => .after fun converted => ?_
    exact .ite (fun _ => .pure hv) fun _ => gives_newCollection _ _

theorem gives_toMap (hv : v.Lasting ∧ v.loc?.isSome) :
    (S.toMap σ required contents path v).Gives fun w => w.Lasting ∧ w.loc?.isSome := by
  unfold toMap
  split
  · dsimp only
    refine .ite (fun _ => .pure hv) fun _ => .after fun items => .after fun converted => ?_
    exact .ite (fun _ => .pure hv) fun _ => .after fun _ =>
      .pure ⟨⟨rfl, fun _ _ other => by cases other⟩, rfl⟩
  · exact .pure hv

theorem gives_ruleContainer (hv : v.Lasting) :
    (S.ruleContainer σ required contents path v).Gives fun r =>
      r.1 = v ∨ r.1.Lasting ∧ r.1.loc?.isSome := by
  unfold ruleContainer
  split
  · exact (gives_toCollection ⟨hv, rfl⟩).bind fun w hw => .pure (.inr hw)
  · exact (gives_toCollection ⟨hv, rfl⟩).bind fun w hw => .pure (.inr hw)
  · exact (gives_toMap ⟨hv, rfl⟩).bind fun w hw => .pure (.inr hw)
  · exact .pure (.inl rfl)

theorem soleElement_of_lasting (hv : v.Lasting) (standard : Bool) :
    soleElement v standard = pure (v, standard) := by
  cases v with
  | array e l => exact absurd rfl (hv.2 e l)
  | _ => rfl

theorem construct?_eq_none (single : ∀ c, required ≠ .object c) (text : String) (deferred : Bool) :
    construct? σ required text deferred = pure none := by
  unfold construct?
  split
  · exact absurd rfl (single _)
  · rfl

/-- The rules come to a value that is neither null nor an array, and are done only with an
instance. -/
def Ruled.Lasts (σ : Schema) (required : Ty) : Ruled → Prop
  | .done v => v.Lasting ∧ σ.accepts required v = true
  | .open v _ => v.Lasting

theorem gives_ruleScalar_lasting (hv : v.Lasting)
    (text : ∀ s, v = .text s → σ.accepts required v = true ∨ required.element?.isSome = true)
    (deferred standard : Bool) :
    (ruleScalar σ required deferred v standard).Gives (Ruled.Lasts σ required) := by
  have scalar {w : Value} (own : w.isNull = false) (no_array : ∀ e l, w ≠ .array e l) :
      w.Lasting := ⟨own, no_array⟩
  refine .ite (fun written => .after fun h => .pure ⟨scalar rfl (by simp), ?_⟩) fun _ => ?_
  · obtain rfl : required = .text := by simp_all
    rfl
  split
  · rename_i s _
    refine .ite (fun _ => .pure hv) fun misfit => ?_
    have container := (text s rfl).resolve_left misfit
    have single : ∀ c, required ≠ .object c := by
      rintro c rfl
      cases container
    rw [ruleText, construct?_eq_none single, pure_bind]
    dsimp only
    split
    · rename_i unwrapped
      rw [Ty.element?, unwrapped] at container
      cases container
    · exact .pure hv
  · split
    · split
      · exact .pure (scalar rfl (by simp))
      · exact .throw _
    · exact .pure hv
  · exact .pure hv

theorem gives_rules_lasting (hv : v.Lasting) (no_array : ∀ e, required.unwrapped ≠ .array e)
    (text : ∀ s, v = .text s → σ.accepts required v = true ∨ required.element?.isSome = true)
    (deferred : Bool) :
    (S.rules σ required contents path deferred v).Gives (Ruled.Lasts σ required) := by
  refine .ite (fun null => ?_) fun _ => .ite (fun unknown => ?_) fun _ => ?_
  · rw [hv.1] at null
    cases null
  · exact .pure ⟨hv, σ.accepts_of_isUnknown unknown v⟩
  split
  · rename_i unwrapped
    exact absurd unwrapped (no_array _)
  · refine (gives_ruleContainer hv).bind fun r hr => ?_
    obtain ⟨w, standard⟩ := r
    dsimp only at hr ⊢
    rcases hr with rfl | ⟨lasting, reference⟩
    · rw [soleElement_of_lasting hv, pure_bind]
      exact gives_ruleScalar_lasting hv text _ _
    · rw [soleElement_of_lasting lasting, pure_bind]
      refine gives_ruleScalar_lasting lasting (fun s text => ?_) _ _
      subst text
      cases reference

theorem gives_checked_unserved (service : S.service = none) (given : Value)
    (converter : Option Converter) (standard : Bool) :
    (S.checked σ required path given converter none v standard).Gives fun w =>
      w = v ∧ σ.accepts required v = true := by
  refine .ite (fun fits => .pure ⟨rfl, fits⟩) fun _ => ?_
  simp only [serve, service]
  exact .throw _

end Rules

theorem no_array_of_lasting (hv : v.Lasting) (fits : σ.accepts required v = true) (e : Ty) :
    required.unwrapped ≠ .array e := by
  intro array
  have fits : σ.accepts required.unwrapped v = true := by
    cases required with
    | nullable t =>
      cases v with
      | null => cases hv.1
      | _ => exact fits
    | _ => exact fits
  rw [array] at fits
  cases v with
  | null => cases hv.1
  | array f l => exact hv.2 f l rfl
  | _ => cases fits

theorem Bare.gives_convert_lasting (hS : S.Bare) (hv : v.Lasting)
    (fits : σ.accepts required v = true) :
    (S.convert σ required path v).Gives fun w => w.Lasting ∧ σ.accepts required w = true := by
  have no_array := no_array_of_lasting hv fits
  rw [hS.convert_eq, withoutService, applied_of_accepts (hS.custom?_eq_none _ _) fits, pure_bind]
  refine (gives_rules_lasting hv no_array (fun _ _ => .inl fits) _).bind fun r hr => ?_
  cases r with
  | done w => exact .pure hr
  | «open» w standard =>
    refine fun h => (gives_checked_unserved hS.service v none standard h).mono (fun u _ hu => ?_)
      fun _ _ => id
    obtain ⟨rfl, own⟩ := hu
    exact ⟨hr, own⟩

/-- A value that is stored where the type is declared, and stays as it is when it is an array:
it has the declared component type. -/
structure Suited (σ : Schema) (required : Ty) (v : Value) : Prop where
  notNull : v.isNull = false
  instance_ : σ.accepts required v = true
  array : ∀ e l, v = .array e l → required.unwrapped = .array e

theorem Bare.gives_convert_suited (hS : S.Bare) (hv : Suited σ required v) :
    (S.convert σ required path v).Gives (Suited σ required) := by
  by_cases array : ∃ e l, v = .array e l
  · obtain ⟨e, l, rfl⟩ := array
    rw [hS.convert_array (.inr (hv.array e l rfl))]
    exact .pure hv
  · have lasting : v.Lasting := ⟨hv.notNull, fun e l same => array ⟨e, l, same⟩⟩
    refine fun h => (hS.gives_convert_lasting lasting hv.instance_ h).mono (fun w _ hw => ?_)
      fun _ _ => id
    exact ⟨hw.1.1, hw.2, fun e l same => absurd same (hw.1.2 e l)⟩

end Strategies

end PropertyAccess
