import PropertyAccess.Navigation.Error
import PropertyAccess.Proofs.Conversion.Deferred
import PropertyAccess.Proofs.Conversion.TextKeys
import PropertyAccess.Proofs.Number.Numeral

/-! Conversions to a primitive type and to its nullable form, by the builtin converters. Such a
conversion only looks at the graph, and its outcome is a function of the value and of what the
value holds. The nullable form differs in that null and blank texts are read as null. A number
and its decimal text come to the same. -/

namespace PropertyAccess

inductive Primitive
  | bool
  | char
  | number (k : NumberKind)

namespace Primitive

open Strategies Converter

variable {σ : Schema} {h : Heap} {v : Value}

def type : Primitive → Ty
  | .bool => .bool
  | .char => .char
  | .number k => .number k

def required (p : Primitive) (nullable : Bool) : Ty :=
  if nullable then .nullable p.type else p.type

def converter : Primitive → Bool → Converter
  | .bool, nullable => .bool nullable
  | .char, nullable => .char nullable
  | .number k, nullable => .number k nullable

def read : Primitive → Bool → String → Except ConvertFailure Value
  | .bool, nullable, text => boolOf nullable text
  | .char, nullable, text => charOf nullable text
  | .number k, nullable, text => numberOf k nullable text

def ofValue : Primitive → Value → Except ConvertFailure Value
  | .number k, v => numberOfValue k v
  | _, v => .ok v

/-- What the converter leaves of a value before it reads any text, and whether it still
applies then. -/
def taken (p : Primitive) (v : Value) : Bool × Value :=
  if v.isText then (true, v)
  else
    match p.ofValue v with
    | .ok w => if w.same v then (true, v) else (false, w)
    | .error _ => (true, v)

def converted (p : Primitive) (nullable : Bool) (v : Value) :
    Option String → Except ConvertFailure Value
  | some text => if (p.taken v).1 then p.read nullable text else .ok (p.taken v).2
  | none => .ok (p.taken v).2

def soleOf (h : Heap) : Value → Value
  | .array e l =>
    match h.items l with
    | [x] => x
    | _ => .array e l
  | v => v

def fitted : Primitive → Value → Except Overflow Value
  | .number k, .number n => (n.convert k).map Value.number
  | _, v => .ok v

def admitted (σ : Schema) (p : Primitive) (nullable : Bool) (path : Option String)
    (given v : Value) : Except ConvertError Value :=
  if σ.accepts (p.required nullable) v then .ok v
  else .error (.conversion ⟨given, p.required nullable, path,
    .inappropriate (p.converter nullable).name (σ.typeName v)⟩)

def concluded (σ : Schema) (h : Heap) (p : Primitive) (nullable : Bool) (path : Option String)
    (given v : Value) : Except ConvertError Value :=
  match p.fitted (soleOf h v) with
  | .ok w => p.admitted σ nullable path given w
  | .error e => .error (.overflow e)

def outcome (σ : Schema) (h : Heap) (p : Primitive) (nullable : Bool) (path : Option String)
    (v : Value) : Except ConvertError Value :=
  if σ.accepts (p.required nullable) v then .ok v
  else
    match textOf? σ h (p.taken v).2 p.type with
    | .ok text =>
      match p.converted nullable v text with
      | .ok w => p.concluded σ h nullable path v w
      | .error f => .error (failureOf v (p.required nullable) path (p.converter nullable) f)
    | .error e => .error e

variable (p : Primitive) (nullable : Bool)

theorem isPrimitive_type : p.type.isPrimitive = true := by
  cases p <;> rfl

theorem exists_type {t : Ty} (primitive : t.isPrimitive = true) : ∃ p : Primitive, p.type = t := by
  cases t with
  | bool => exact ⟨.bool, rfl⟩
  | char => exact ⟨.char, rfl⟩
  | number k => exact ⟨.number k, rfl⟩
  | _ => cases primitive

@[simp] theorem unwrapped_required : (p.required nullable).unwrapped = p.type := by
  cases nullable <;> cases p <;> rfl

theorem element?_required : (p.required nullable).element? = none :=
  Ty.element?_of_isPrimitive (by rw [unwrapped_required, isPrimitive_type])

theorem isUnknown_required : (p.required nullable).isUnknown = false := by
  cases nullable <;> cases p <;> rfl

theorem required_ne_text : p.required nullable ≠ .text := by
  cases nullable <;> cases p <;> simp [required, type]

theorem required_ne_object (c : ClassId) : p.required nullable ≠ .object c := by
  cases nullable <;> cases p <;> simp [required, type]

theorem accepts_text (text : String) : σ.accepts (p.required nullable) (.text text) = false := by
  cases nullable <;> cases p <;> rfl

theorem fitted_of_accepts (fits : σ.accepts (p.required nullable) v = true) :
    p.fitted (soleOf h v) = .ok v := by
  cases v with
  | number n =>
    cases p with
    | number k =>
      have same : n.kind = k := by
        cases nullable <;> simpa [required, type, Schema.accepts] using fits
      simp [soleOf, fitted, ← same, Number.convert_self, Except.map]
    | _ => rfl
  | array e l => cases nullable <;> cases p <;> cases fits
  | _ => cases p <;> rfl

theorem find?_required (σ : Schema) :
    DefaultTable.standard.find? σ (p.required nullable) = some (p.converter nullable) := by
  cases p with
  | bool => cases nullable <;> rfl
  | char => cases nullable <;> rfl
  | number k => rcases k with k | k <;> cases k <;> cases nullable <;> rfl

theorem fromText_converter (text : String) (t : Ty) :
    (p.converter nullable).fromText σ text t = ExceptT.mk (pure (p.read nullable text)) := by
  cases p <;> rfl

theorem fromValue_converter (v : Value) (t : Ty) :
    (p.converter nullable).fromValue σ v t = ExceptT.mk (pure (p.ofValue v)) := by
  cases p <;> rfl

theorem textOf?_required (h : Heap) (v : Value) :
    textOf? σ h v (p.required nullable) = textOf? σ h v p.type := by
  cases nullable <;> cases p <;> rfl

theorem throughValue_converter (v : Value) :
    throughValue σ (some (p.converter nullable)) v (p.required nullable) =
      pure (if (p.taken v).1 then some (p.converter nullable) else none, (p.taken v).2) := by
  have asked : (Run.outcome ((p.converter nullable).fromValue σ v (p.required nullable)) :
      Run ConvertError _) = pure (p.ofValue v) := by
    rw [fromValue_converter]
    rfl
  rw [throughValue, taken]
  split
  · rfl
  · rw [asked, pure_bind]
    cases p.ofValue v with
    | error f => rfl
    | ok w => by_cases same : w.same v = true <;> simp [same]

theorem on_throughText (given : Value) (active : Bool) (current : Value) (path : Option String) :
    (throughText σ given (if active then some (p.converter nullable) else none) current
        (p.required nullable) path).on h =
      (match textOf? σ h current p.type with
        | .ok (some text) =>
          if active then
            (p.read nullable text).mapError
              (failureOf given (p.required nullable) path (p.converter nullable))
          else .ok current
        | .ok none => .ok current
        | .error e => .error e, h) := by
  rw [throughText, Run.on_bind, Run.on_inspect, textOf?_required]
  rcases textOf? σ h current p.type with e | _ | text
  · rfl
  · rfl
  · cases active with
    | true =>
      simp only [if_true]
      rw [fromText_converter, Run.on_mapError]
      rfl
    | false =>
      simp only [Bool.false_eq_true, if_false, if_neg (p.required_ne_text nullable)]
      rfl

end Primitive

namespace Strategies

open Primitive

variable {σ : Schema} {S : Strategies} {h : Heap} {v : Value} {path : Option String}
  (p : Primitive) (nullable : Bool)

theorem Plain.on_applied (hS : S.Plain) (misfit : σ.accepts (p.required nullable) v = false) :
    (S.applied σ (p.required nullable) path v).on h =
      (match textOf? σ h (p.taken v).2 p.type with
        | .ok text =>
          match p.converted nullable v text with
          | .ok w => .ok (some (p.converter nullable), w)
          | .error f => .error (failureOf v (p.required nullable) path (p.converter nullable) f)
        | .error e => .error e, h) := by
  have split (v : Value) : splitIf ((p.required nullable).isCollection &&
      ((p.required nullable).element?.map Ty.isEnum).getD false) v = pure v := by
    rw [element?_required]
    cases v <;> simp [splitIf]
  simp only [applied, misfit, Bool.and_false, Bool.false_eq_true, if_false, split, pure_bind,
    hS.chosen?_eq, find?_required, throughValue_converter]
  rw [Run.on_bind, on_throughText]
  rcases textOf? σ h (p.taken v).2 p.type with e | _ | text
  · rfl
  · rfl
  · simp only [converted]
    cases (p.taken v).1 with
    | false => rfl
    | true =>
      simp only [if_true]
      cases p.read nullable text <;> rfl

theorem on_soleElement (v : Value) (standard : Bool) :
    ∃ s, (soleElement v standard).on h = (.ok (soleOf h v, s), h) := by
  cases v with
  | array e l =>
    have looked : (Run.lookup (·.items l) : Run ConvertError _).on h = (.ok (h.items l), h) := rfl
    rw [soleElement, Run.on_bind_of_ok looked, soleOf]
    rcases h.items l with _ | ⟨x, _ | ⟨y, r⟩⟩ <;> exact ⟨_, rfl⟩
  | _ => exact ⟨_, rfl⟩

theorem on_ruleScalar (v : Value) (standard : Bool) :
    ∃ s, (ruleScalar σ (p.required nullable) false v standard).on h =
      (((p.fitted v).mapError .overflow).map (.open · s), h) := by
  have unwritten : ¬ (p.required nullable = .text && v.isPrimitive) = true := by
    simp [required_ne_text]
  unfold ruleScalar
  rw [if_neg unwritten]
  cases v with
  | text text =>
    refine ⟨true, ?_⟩
    simp only [accepts_text, Bool.false_eq_true, if_false, ruleText,
      construct?_eq_none (p.required_ne_object nullable), pure_bind, unwrapped_required]
    cases p <;> rfl
  | number n =>
    simp only [unwrapped_required]
    cases p with
    | number k =>
      refine ⟨true, ?_⟩
      simp only [type, fitted]
      cases n.convert k <;> rfl
    | _ => exact ⟨standard, rfl⟩
  | _ => exact ⟨standard, by cases p <;> rfl⟩

theorem on_rules (v : Value) :
    ∃ s, (S.rules σ (p.required nullable) .none path false v).on h =
      (((p.fitted (soleOf h v)).mapError .overflow).map (.open · s), h) := by
  by_cases null : v.isNull = true
  · cases v with
    | null => exact ⟨false, by cases p <;> rfl⟩
    | _ => cases null
  · have unfolded : S.rules σ (p.required nullable) .none path false v = (do
        let gathered ← S.ruleContainer σ (p.required nullable) .none path v
        let sole ← soleElement gathered.1 gathered.2
        ruleScalar σ (p.required nullable) false sole.1 sole.2) := by
      rw [rules, if_neg null, isUnknown_required, if_neg Bool.false_ne_true,
        unwrapped_required]
      cases p <;> rfl
    rw [unfolded, ruleContainer_of_element?_eq_none (element?_required p nullable), pure_bind]
    obtain ⟨s, sole⟩ := on_soleElement (h := h) v _
    rw [Run.on_bind_of_ok sole]
    exact on_ruleScalar p nullable _ s

theorem Plain.on_settled (hS : S.Plain) (given v : Value) (converter : Option Converter)
    (standard : Bool) :
    (S.settled σ (p.required nullable) path given none (converter, .open v standard)).on h =
      if σ.accepts (p.required nullable) v = true then (.ok v, h)
      else (.error (.conversion ⟨given, p.required nullable, path, match converter with
        | some c => .inappropriate c.name (σ.typeName v)
        | none => .noStrategy⟩), h) := by
  have alone : S.unserved = S := by
    cases S
    exact congrArg (Strategies.mk _ _) hS.service.symm
  rw [← alone]
  exact on_checked_unserved given converter v standard

/-- The outcome of a conversion to a primitive type, with nothing changed in the graph. -/
theorem Plain.on_convert (hS : S.Plain) (v : Value) :
    (S.convert σ (p.required nullable) path v).on h = (p.outcome σ h nullable path v, h) := by
  have looks (converter : Option Converter) (w : Value) : ∃ s,
      (S.rules σ (p.required nullable) .none path false w >>= fun r => pure (converter, r)).on h =
        (((p.fitted (soleOf h w)).mapError .overflow).map fun x => (converter, .open x s), h) := by
    have ran : ∃ s, (S.rules σ (p.required nullable) .none path false w).on h =
        (((p.fitted (soleOf h w)).mapError .overflow).map (.open · s), h) := on_rules p nullable w
    obtain ⟨s, ran⟩ := ran
    refine ⟨s, ?_⟩
    rw [Run.on_bind, ran]
    cases p.fitted (soleOf h w) <;> rfl
  rw [hS.toBare.convert_eq, withoutService_eq (element?_required p nullable), Run.on_bind, ruled,
    outcome]
  cases fits : σ.accepts (p.required nullable) v with
  | true =>
    obtain ⟨s, ran⟩ := looks none v
    rw [fitted_of_accepts p nullable fits] at ran
    rw [applied_of_accepts (hS.custom?_eq_none _ _) fits, pure_bind]
    simp only [Option.isSome_none, ran, Except.mapError, Except.map, hS.on_settled, fits, if_true]
  | false =>
    rw [Run.on_bind, hS.on_applied p nullable fits]
    rcases textOf? σ h (p.taken v).2 p.type with e | text
    · rfl
    dsimp only
    cases converted : p.converted nullable v text with
    | error f => rfl
    | ok w =>
      obtain ⟨s, ran⟩ := looks (some (p.converter nullable)) w
      simp only [Option.isSome_none, ran, Bool.false_eq_true, if_false, concluded]
      cases fitted : p.fitted (soleOf h w) with
      | error e => rfl
      | ok x =>
        simp only [Except.mapError, Except.map, hS.on_settled, admitted]
        split <;> rfl

end Strategies

/-! Null is the only difference. -/

/-- The second conversion ends like the first, or with null where the first fails. -/
inductive AddsNull : Except ConvertError Value → Except ConvertError Value → Prop
  | value (v : Value) : AddsNull (.ok v) (.ok v)
  | failure {e f : ConvertError}
    (kind : (PathError.ofConvert e).kind = (PathError.ofConvert f).kind) :
    AddsNull (.error e) (.error f)
  | null (e : ConvertError) (fails : e ≠ .endless) : AddsNull (.error e) (.ok .null)

namespace Primitive

open Strategies Converter

variable {σ : Schema} {h : Heap} {v : Value} {path : Option String} (p : Primitive)

theorem read_nullable (text : String) :
    p.read true text = p.read false text ∨
      p.read true text = .ok .null ∧ ∃ message, p.read false text = .error (.invalid message) := by
  cases p with
  | bool =>
    by_cases blank : Text.trim text.toList = []
    · exact .inr ⟨by simp [read, boolOf, blank], _, by simp only [read, boolOf, blank]; rfl⟩
    · exact .inl (by simp [read, boolOf, blank])
  | char =>
    by_cases empty : text.toList = []
    · exact .inr ⟨by simp [read, charOf, empty], _, by simp only [read, charOf, empty]; rfl⟩
    · exact .inl (by simp [read, charOf, empty])
  | number k =>
    by_cases blank : Text.trim text.toList = []
    · obtain ⟨message, refused⟩ := readNumber_of_blank (Text.compact_of_trim_eq_nil blank) k
      refine .inr ⟨by simp [read, numberOf, blank], message, ?_⟩
      simp only [read, numberOf, refused]
      rfl
    · exact .inl (by simp [read, numberOf, blank])

theorem converted_nullable (v : Value) (text : Option String) :
    p.converted true v text = p.converted false v text ∨
      p.converted true v text = .ok .null ∧
        ∃ message, p.converted false v text = .error (.invalid message) := by
  cases text with
  | none => exact .inl rfl
  | some text =>
    rw [converted, converted]
    cases (p.taken v).1 with
    | false => exact .inl rfl
    | true => exact p.read_nullable text

theorem accepts_required (there : v.isNull = false) (nullable : Bool) :
    σ.accepts (p.required nullable) v = σ.accepts p.type v := by
  cases nullable with
  | false => rfl
  | true =>
    cases v with
    | null => cases there
    | _ => rfl

theorem addsNull_admitted (given v : Value) :
    AddsNull (p.admitted σ false path given v) (p.admitted σ true path given v) := by
  by_cases null : v.isNull = true
  · cases v with
    | null =>
      have strict : σ.accepts (p.required false) .null = false := by cases p <;> rfl
      have lenient : σ.accepts (p.required true) .null = true := rfl
      rw [admitted, admitted, strict, lenient]
      exact .null _ nofun
    | _ => cases null
  · rw [Bool.not_eq_true] at null
    rw [admitted, admitted, accepts_required p null, accepts_required p null]
    split
    · exact .value v
    · exact .failure rfl

theorem addsNull_concluded (given v : Value) :
    AddsNull (p.concluded σ h false path given v) (p.concluded σ h true path given v) := by
  rw [concluded, concluded]
  cases p.fitted (soleOf h v) with
  | ok w => exact addsNull_admitted p given w
  | error e => exact .failure rfl

theorem addsNull_outcome (v : Value) :
    AddsNull (p.outcome σ h false path v) (p.outcome σ h true path v) := by
  by_cases null : v.isNull = true
  · cases v with
    | null =>
      have lenient : p.outcome σ h true path .null = .ok .null := rfl
      have strict : ∃ e, p.outcome σ h false path .null = .error (.conversion e) := by
        cases p <;> exact ⟨_, rfl⟩
      obtain ⟨e, strict⟩ := strict
      rw [lenient, strict]
      exact .null _ nofun
    | _ => cases null
  rw [Bool.not_eq_true] at null
  rw [outcome, outcome, accepts_required p null, accepts_required p null]
  split
  · exact .value v
  rcases textOf? σ h (p.taken v).2 p.type with e | text
  · exact .failure rfl
  dsimp only
  rcases p.converted_nullable v text with same | ⟨read, message, refused⟩
  · rw [same]
    cases p.converted false v text with
    | ok w => exact addsNull_concluded p v w
    | error f => cases f <;> exact .failure rfl
  · rw [read, refused]
    have concluded : p.concluded σ h true path v .null = .ok .null := by cases p <;> rfl
    dsimp only
    rw [concluded]
    exact .null _ nofun

end Primitive

namespace Strategies

variable {σ : Schema} {S : Strategies} {t : Ty}

/-- With the builtin converters alone, a conversion to the nullable form of a primitive type
comes to the same as one to the type itself, or to null where that one fails. -/
theorem Plain.nullable_adds_null (hS : S.Plain) (primitive : t.isPrimitive = true)
    (path : Option String) (v : Value) (h : Heap) :
    ∃ strict lenient, (S.convert σ t path v).on h = (strict, h) ∧
      (S.convert σ (.nullable t) path v).on h = (lenient, h) ∧ AddsNull strict lenient := by
  obtain ⟨p, rfl⟩ := Primitive.exists_type primitive
  exact ⟨_, _, hS.on_convert p false v, hS.on_convert p true v, p.addsNull_outcome v⟩

def soleNull : Heap := ⟨#[.items [.null]]⟩

theorem Plain.nullable_adds_null_sole :
    (⟨.empty, .standard, none⟩ : Strategies).Plain ∧
      (Ty.number (.int .i32)).isPrimitive = true ∧
      ∃ e, ((⟨.empty, .standard, none⟩ : Strategies).convert .empty (.number (.int .i32)) none
          (.array .any 0)).on soleNull = (.error e, soleNull) ∧
        ((⟨.empty, .standard, none⟩ : Strategies).convert .empty
          (.nullable (.number (.int .i32))) none (.array .any 0)).on soleNull =
          (.ok .null, soleNull) := by
  have plain : (⟨.empty, .standard, none⟩ : Strategies).Plain := ⟨⟨rfl, rfl⟩, rfl⟩
  have null : ((⟨.empty, .standard, none⟩ : Strategies).convert .empty
      (.nullable (.number (.int .i32))) none (.array .any 0)).on soleNull =
        (.ok .null, soleNull) := by decide +kernel
  have missing : ((⟨.empty, .standard, none⟩ : Strategies).convert .empty (.number (.int .i32)) none
      (.array .any 0)).on soleNull ≠ (.ok .null, soleNull) := by decide +kernel
  obtain ⟨strict, lenient, hs, hl, adds⟩ :=
    @Plain.nullable_adds_null .empty _ (.number (.int .i32)) plain rfl none (.array .any 0)
      soleNull
  refine ⟨plain, rfl, ?_⟩
  rw [null] at hl
  rw [hs] at missing ⊢
  cases hl
  cases adds with
  | value => exact absurd rfl missing
  | null e _ => exact ⟨e, rfl, null⟩

end Strategies

end PropertyAccess
