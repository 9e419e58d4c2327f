import PropertyAccess.Proofs.Conversion.Harmless

/-! Arrays that fit where they are required. Such an array comes through as it is only
if it has the very component type that is declared and no converter is registered for
its elements, or if nothing is declared. Otherwise the result is a new array, with
every element converted. -/

namespace PropertyAccess

theorem Schema.accepts_array (σ : Schema) (t elem : Ty) (l m : Loc) :
    σ.accepts t (.array elem l) = σ.accepts t (.array elem m) := by
  induction t with
  | nullable t ih => exact ih
  | _ => rfl

namespace Strategies

/-- An array with this component type is left as it is. -/
def passes (σ : Schema) (S : Strategies) (required : Ty) (path : Option String) (elem : Ty) :
    Bool :=
  match required.unwrapped with
  | .array declared =>
    elem = declared && !S.registered.hasElementConverter σ (some declared) path
  | _ => required.isUnknown

variable {σ : Schema} {S : Strategies} {required elem : Ty} {path : Option String} {l : Loc}
  {h : Heap}

theorem step_of_service_eq_none (service : S.service = none) (contents : ContentConversions)
    (v : Value) :
    S.step σ required contents path v = S.withoutService σ required contents path v none := by
  have asked : S.ask σ required path v = pure .unable := by simp [ask, serve, service]
  rw [step, asked, pure_bind]

theorem applied_of_accepts {v : Value} (own : S.custom? σ required path = none)
    (fits : σ.accepts required v = true) : S.applied σ required path v = pure (none, v) := by
  simp [applied, own, fits]

theorem ends_newConverted {contents : ContentConversions} (hc : contents.Harmless)
    (items : List Value) :
    (newConverted elem contents path items).Ends h
      (fun w _ => ∃ m, w = .array elem m ∧ h.size ≤ m) (fun _ _ => True) := by
  simp only [newConverted, Run.newArray, Run.ends_bind, Run.ends_alloc, Run.ends_pure]
  refine (harmless_convertItems hc.element path 0 items).ends_of (fun ws h' hx => ?_)
    fun _ _ _ => trivial
  exact ⟨h'.size, rfl, hx.size_le⟩

theorem ends_toArray {contents : ContentConversions} (hc : contents.Harmless) {declared : Ty}
    (hl : l < h.size) :
    (S.toArray σ declared contents path (.array elem l)).Ends h
      (fun w _ => w = .array elem l ↔
        (elem = declared && !S.registered.hasElementConverter σ (some declared) path) = true)
      (fun _ _ => True) := by
  rw [toArray]
  split
  · rename_i same
    rw [Run.ends_pure]
    exact ⟨fun _ => same, fun _ => rfl⟩
  · rename_i differs
    simp only [Run.ends_bind, Run.ends_lookup]
    refine (ends_newConverted hc _).mono (fun w _ hw => ?_) fun _ _ => id
    obtain ⟨m, rfl, fresh⟩ := hw
    constructor
    · intro same
      injection same with _ same
      rw [same] at fresh
      exact absurd hl (Nat.not_lt.2 fresh)
    · exact fun same => absurd same differs

theorem ends_convert_array (hσ : σ.MakesNew) (hS : S.Harmless σ) (service : S.service = none)
    (own : S.custom? σ required path = none)
    (shape : required.isUnknown = true ∨ required.isArray = true)
    (fits : σ.accepts required (.array elem l) = true) (hl : l < h.size) :
    (S.convert σ required path (.array elem l)).Ends h
      (fun w _ => w = .array elem l ↔ S.passes σ required path elem = true)
      (fun _ _ => True) := by
  rw [convert, step_of_service_eq_none service, withoutService, applied_of_accepts own fits,
    pure_bind, Run.ends_bind]
  by_cases unknown : required.isUnknown = true
  · have passes : S.passes σ required path elem = true := by
      cases required <;> simp_all [Ty.isUnknown, passes, Ty.unwrapped]
    simp [rules, Value.isNull, unknown, passes]
  · have array : required.isArray = true := shape.resolve_left unknown
    unfold Ty.isArray at array
    split at array
    · rename_i declared unwrapped
      simp only [rules, Value.isNull, unknown, unwrapped, splitIf, passes, Bool.false_eq_true,
        if_false, pure_bind, Run.ends_bind]
      refine (ends_toArray (harmless_contents hσ hS required) hl).mono (fun w _ hw => ?_)
        fun _ _ => id
      simpa using hw
    · cases array

end Strategies

end PropertyAccess
