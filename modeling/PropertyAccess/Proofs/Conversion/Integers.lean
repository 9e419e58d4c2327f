import PropertyAccess.Proofs.Conversion.Primitives

/-! An integer and its decimal text are converted alike to another kind of integer. Along one
way the number is fitted into the kind, along the other the digits are read; both come to the
same integer, or to the same overflow. -/

namespace PropertyAccess

variable {σ : Schema} {h : Heap} {path : Option String} {a k : IntKind} {z : Int}

theorem Number.convert_int (own : a.Holds z) (k : IntKind) :
    (Number.int a z own).convert (.int k) =
      if fits : k.Holds z then .ok (.int k z fits) else .error ⟨toString z, .int k⟩ := by
  by_cases same : a = k
  · subst same
    rw [dif_pos own]
    exact Number.convert_self _
  · have other : (Number.int a z own).kind ≠ .int k := by simpa [Number.kind] using same
    rw [Number.convert, if_neg other]
    by_cases fits : k.Holds z <;> simp [Number.int?, fits, Number.toText]

/-- The integer in the kind, or its overflow. -/
def integerIn (k : IntKind) (z : Int) : Except ConvertError Value :=
  if fits : k.Holds z then .ok (.number (.int k z fits))
  else .error (.overflow ⟨toString z, .int k⟩)

namespace Primitive

open Strategies Converter

variable (σ h path) (nullable : Bool)

theorem accepts_int (own : a.Holds z) :
    σ.accepts ((number (.int k)).required nullable) (.number (.int a z own)) = (a == k) := by
  rw [accepts_required _ rfl, Bool.eq_iff_iff]
  simp [type, Schema.accepts, Number.kind]

theorem concluded_int_self (given : Value) (own : k.Holds z) :
    (number (.int k)).concluded σ h nullable path given (.number (.int k z own)) =
      .ok (.number (.int k z own)) := by
  have fitted : (number (.int k)).fitted (soleOf h (.number (.int k z own))) =
      .ok (.number (.int k z own)) :=
    fitted_of_accepts (σ := σ) _ nullable (by rw [accepts_int, beq_self_eq_true])
  rw [concluded, fitted]
  dsimp only
  rw [admitted, accepts_int, if_pos (beq_self_eq_true k)]

theorem taken_int_of_holds (own : a.Holds z) (differ : a ≠ k) (fits : k.Holds z) :
    (number (.int k)).taken (.number (.int a z own)) = (false, .number (.int k z fits)) := by
  have moved : (Value.number (.int k z fits)).same (.number (.int a z own)) = false := by
    simp [Value.same, Number.same, differ.symm]
  have narrowed : (number (.int k)).ofValue (.number (.int a z own)) =
      .ok (.number (.int k z fits)) := by
    rw [ofValue, numberOfValue, narrowNumber, Number.convert_int, dif_pos fits]
    rfl
  rw [taken, narrowed]
  simp [Value.isText, moved]

theorem taken_int_of_not_holds (own : a.Holds z) (exceeds : ¬ k.Holds z) :
    (number (.int k)).taken (.number (.int a z own)) = (true, .number (.int a z own)) := by
  rw [taken, ofValue, numberOfValue, narrowNumber, Number.convert_int, dif_neg exceeds]
  rfl

theorem concluded_int_of_not_holds (given : Value) (own : a.Holds z) (exceeds : ¬ k.Holds z) :
    (number (.int k)).concluded σ h nullable path given (.number (.int a z own)) =
      .error (.overflow ⟨toString z, .int k⟩) := by
  have unfitted : (number (.int k)).fitted (soleOf h (.number (.int a z own))) =
      .error ⟨toString z, .int k⟩ := by
    change ((Number.int a z own).convert (.int k)).map Value.number = _
    rw [Number.convert_int, dif_neg exceeds]
    rfl
  rw [concluded, unfitted]

theorem textOf?_number (n : Number) (t : Ty) : textOf? σ h (.number n) t = .ok none := rfl

theorem outcome_int (own : a.Holds z) (k : IntKind) :
    (number (.int k)).outcome σ h nullable path (.number (.int a z own)) = integerIn k z := by
  rw [outcome, accepts_int]
  by_cases same : a = k
  · subst same
    rw [if_pos (beq_self_eq_true a), integerIn, dif_pos own]
  rw [if_neg (by simpa using same), integerIn]
  by_cases fits : k.Holds z
  · have converted : (number (.int k)).converted nullable (.number (.int a z own)) none =
        .ok (.number (.int k z fits)) := by
      rw [Primitive.converted, taken_int_of_holds own same fits]
    rw [taken_int_of_holds own same fits, textOf?_number]
    dsimp only
    rw [converted, dif_pos fits]
    exact concluded_int_self σ h path nullable _ fits
  · have converted : (number (.int k)).converted nullable (.number (.int a z own)) none =
        .ok (.number (.int a z own)) := by
      rw [Primitive.converted, taken_int_of_not_holds own fits]
    rw [taken_int_of_not_holds own fits, textOf?_number]
    dsimp only
    rw [converted, dif_neg fits]
    exact concluded_int_of_not_holds σ h path nullable _ own fits

theorem numberOf_of_inked {text : String} (inked : Text.compact text.toList ≠ [])
    (kind : NumberKind) : numberOf kind nullable text = (readNumber text kind).map .number := by
  have rest : Text.trim text.toList ≠ [] := fun blank => inked (Text.compact_of_trim_eq_nil blank)
  simp [numberOf, rest]

theorem outcome_toString (z : Int) (k : IntKind) :
    (number (.int k)).outcome σ h nullable path (.text (toString z)) = integerIn k z := by
  have denotes : Number.Denotes (Text.compact (toString z).toList) z := by
    rw [Number.compact_toString]
    exact Number.denotes_toString z
  have inked : Text.compact (toString z).toList ≠ [] := by
    intro blank
    rw [blank] at denotes
    cases Number.integerOf?_eq_some_iff.2 denotes
  have converted : (number (.int k)).converted nullable (.text (toString z))
      (some (toString z)) = (readNumber (toString z) (.int k)).map .number :=
    numberOf_of_inked nullable inked _
  have read : textOf? σ h ((number (.int k)).taken (.text (toString z))).2
      (number (.int k)).type = .ok (some (toString z)) := rfl
  rw [outcome, accepts_text, if_neg Bool.false_ne_true, read]
  dsimp only
  rw [converted, readNumber_of_denotes denotes, Number.compact_toString, String.ofList_toList,
    integerIn]
  by_cases fits : k.Holds z
  · simp only [fits, dite_true, Except.map]
    exact concluded_int_self σ h path nullable _ fits
  · simp only [fits, dite_false, Except.map]
    rfl

end Primitive

namespace Strategies

variable {S : Strategies}

/-- With the builtin converters alone, an integer of any kind and its decimal text are converted
to any kind, nullable or not, as the same integer where it is in the range of the kind, and as
the same overflow where it is not. -/
theorem Plain.converts_integer (hS : S.Plain) (own : a.Holds z) (k : IntKind)
    (path : Option String) (h : Heap) :
    ∀ t ∈ [Ty.number (.int k), .nullable (.number (.int k))],
      ∀ v ∈ [Value.number (.int a z own), .text (Number.int a z own).toText],
        (S.convert σ t path v).on h = (integerIn k z, h) := by
  have each (nullable : Bool) (v : Value)
      (there : v ∈ [Value.number (.int a z own), .text (Number.int a z own).toText]) :
      (S.convert σ ((Primitive.number (.int k)).required nullable) path v).on h =
        (integerIn k z, h) := by
    rw [hS.on_convert]
    simp only [List.mem_cons, List.not_mem_nil, or_false] at there
    obtain rfl | rfl := there
    · rw [Primitive.outcome_int]
    · rw [Number.toText, Primitive.outcome_toString]
  intro t required
  simp only [List.mem_cons, List.not_mem_nil, or_false] at required
  obtain rfl | rfl := required
  · exact each false
  · exact each true

theorem Plain.converts_integer_least :
    (⟨.empty, .standard, none⟩ : Strategies).Plain ∧ IntKind.i64.Holds (-128) ∧
      ∀ t ∈ [Ty.number (.int .i8), .nullable (.number (.int .i8))],
        ∀ v ∈ [Value.number (.int .i64 (-128) (by decide)), .text "-128"],
          ((⟨.empty, .standard, none⟩ : Strategies).convert .empty t none v).on .empty =
            (.ok (.number (.int .i8 (-128) (by decide))), .empty) := by
  have plain : (⟨.empty, .standard, none⟩ : Strategies).Plain := ⟨⟨rfl, rfl⟩, rfl⟩
  have own : IntKind.i64.Holds (-128) := by decide
  exact ⟨plain, own, plain.converts_integer own .i8 none .empty⟩

end Strategies

end PropertyAccess
